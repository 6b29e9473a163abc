import Wordlang.Proofs.OnDemand
import Wordlang.Proofs.Descents
import Wordlang.Tree.Routine

/-! # Progress of a parser

Parsing comes to an end wherever a parser stands, also where the text is no program: the routines
do what they do by fuel, and there is fuel enough for the tokens that are left. On its way a
routine takes the first of these tokens, and never the end of the text.
-/

namespace Wordlang

theorem Cursor.length_tokens_items_le (cursor : Cursor) :
    ((cursor.items.filterMap Except.toOption).filter (·.kind ≠ .eof)).length ≤
      cursor.rest.length := by
  rcases cursor.items_cases with ⟨last, isEof, items⟩ | ⟨item, after, shorter, items, -, -⟩
  · simp [items, Except.toOption, isEof]
  · have fewer := length_tokens_items_le after
    have one := List.length_filter_le (·.kind ≠ .eof) item.toOption.toList
    have atMost : item.toOption.toList.length ≤ 1 := Option.length_toList_le
    have apart : (item :: after.items).filterMap Except.toOption =
        item.toOption.toList ++ after.items.filterMap Except.toOption := by
      cases item <;> rfl
    rw [items, apart, List.filter_append, List.length_append]
    omega
termination_by cursor.rest.length

theorem Parser.length_left_lt (s : Parser) :
    s.left.length < s.stream.cursor.rest.length + 2 := by
  have inView : (s.stream.lookahead.toList.filter (·.kind ≠ .eof)).length ≤ 1 :=
    Nat.le_trans (List.length_filter_le _ _) Option.length_toList_le
  have unscanned : ((s.stream.unscanned.filterMap Except.toOption).filter
      (·.kind ≠ .eof)).length ≤ s.stream.cursor.rest.length := by
    have ahead := s.stream.cursor.length_tokens_items_le
    unfold Stream.unscanned
    split
    · exact ahead
    · split
      · exact Nat.zero_le _
      · exact ahead
  rw [left, List.filter_append, List.length_append]
  omega

theorem Parse.Stepwise.exists_steps {α : Type} {work : Parse α} (stepwise : Stepwise work)
    (s : Parser) : ∃ answer s' items, Descent.ofParse work s = some (answer, s') ∧
      Parser.Steps s items s' := by
  have stepped := stepwise s
  cases ended : work s with
  | ok value s' =>
      rw [ended] at stepped
      cases stepped with
      | ok tokens steps => exact ⟨.ok value, s', _, Descent.ofParse_eq_ok.mpr ended, steps⟩
  | error error s' =>
      rw [ended] at stepped
      cases stepped with
      | broken tokens steps | refused tokens steps =>
        exact ⟨.error _, s', _, Descent.ofParse_eq_error.mpr ended, steps⟩

namespace Descent

theorem agrees_program (n : Nat) : Agrees n program Parser.program := by
  intro s _
  have budget : Parser.budget s = .ok (s.stream.cursor.rest.length + 2) s := rfl
  rw [Parser.program, ofParse_bind_of_ok budget]
  refine (agrees_functions _).bind (Parse.stepwise_functions _) ?_ s s.length_left_lt
  intro funcs
  apply (agrees_lift _ _).bind (Parse.stepwise_sees _)
  intro ended
  split
  · exact agrees_pure _ _
  · exact agrees_lift _ _

theorem program_eq_call (s : Parser) : program s = some s.call := by
  rw [agrees_program _ s (Nat.lt_succ_self _), ofParse, Parser.call, EStateM.run]
  cases Parser.program s <;> rfl

end Descent

namespace Routine

open Parse Descent

theorem advances_operand (fuel : Nat) : Advances (operand fuel) :=
  advances_unary (advances_primary (stepwise_expr fuel)) fuel

theorem agrees_inner (fuel : Nat) :
    Agrees fuel (Phrase.read .primary) (Parser.primary (Parser.expr fuel)) :=
  (agrees_primary (stepwise_expr fuel) (agrees_expr fuel)).mono fuel.le_succ

theorem agrees_operand (fuel : Nat) : Agrees fuel (Phrase.read .unary) (operand fuel) :=
  agrees_unary (advances_primary (stepwise_expr fuel)) (agrees_inner fuel) (Nat.le_refl _)

theorem agrees_levels (levels : List BinOp.Level) (fuel : Nat) :
    Agrees fuel (Phrase.read (.binary levels)) (Parser.binary (operand fuel) fuel levels) :=
  agrees_binary (advances_operand fuel) (agrees_operand fuel) (Nat.le_refl _) levels

theorem agrees (routine : Routine) (fuel : Nat) :
    Agrees fuel routine.run (routine.bounded fuel) := by
  cases routine with
  | program => exact agrees_program fuel
  | func => exact agrees_func fuel
  | param => exact agrees_lift fuel Parser.param
  | decl => exact agrees_decl fuel
  | type => exact agrees_lift fuel Parser.type
  | stmt => exact agrees_stmt fuel
  | assignment target line => exact agrees_assignment target line fuel
  | indexAssignment target index line => exact agrees_indexAssignment target index line fuel
  | callOf value => exact agrees_callOf value fuel
  | condition => exact agrees_condition fuel
  | block =>
      exact (agrees_block (advances_stmt fuel) (agrees_stmt fuel) (Nat.le_refl _)).mono
        fuel.le_succ
  | expr => exact agrees_expr fuel
  | binary levels => exact agrees_levels levels fuel
  | unary => exact agrees_operand fuel
  | primary => exact agrees_inner fuel
  | functions => exact agrees_functions fuel
  | params => exact agrees_params fuel
  | decls => exact agrees_decls fuel
  | names => exact agrees_names fuel
  | body => exact agrees_body fuel
  | args => exact agrees_args fuel
  | stmts => exact agrees_stmts (advances_stmt fuel) (agrees_stmt fuel) (Nat.le_refl _)
  | chain level tighter left =>
      have tighters := advances_binary (advances_operand fuel) fuel tighter
      exact agrees_chain tighters (agrees_levels tighter fuel) (Nat.le_refl _) level left

/-- A part takes a token if it is read. -/
theorem advances {routine : Routine} (isPart : routine.isPart = true) (fuel : Nat) :
    Advances (routine.bounded fuel) := by
  cases routine with
  | func => exact advances_func fuel
  | param => exact advances_param
  | decl => exact advances_decl fuel
  | type => exact advances_type
  | stmt => exact advances_stmt fuel
  | assignment target line => exact advances_assignment target line fuel
  | indexAssignment target index line => exact advances_indexAssignment target index line fuel
  | condition => exact advances_condition fuel
  | block => exact advances_block (stepwise_stmt fuel) fuel
  | expr => exact advances_expr fuel
  | binary levels => exact advances_binary (advances_operand fuel) fuel levels
  | unary => exact advances_operand fuel
  | primary => exact advances_primary (stepwise_expr fuel)
  | names => exact advances_names fuel
  | program | callOf | functions | params | decls | body | args | stmts | chain => cases isPart

theorem stepwise (routine : Routine) (fuel : Nat) : Stepwise (routine.bounded fuel) := by
  cases isPart : routine.isPart with
  | true => exact (advances isPart fuel).stepwise
  | false =>
      cases routine with
      | program => exact stepwise_program
      | callOf value => exact stepwise_callOf value fuel
      | functions => exact stepwise_functions fuel
      | params => exact stepwise_params fuel
      | decls => exact stepwise_decls fuel
      | body => exact stepwise_body fuel
      | args => exact stepwise_args fuel
      | stmts => exact stepwise_stmts (stepwise_stmt fuel) fuel
      | chain level tighter left =>
          have tighters := advances_binary (advances_operand fuel) fuel tighter
          exact stepwise_chain tighters.stepwise level fuel left
      | _ => cases isPart

/-- A routine comes to an end wherever a parser stands. It does what it does by any fuel above
    the number of the tokens that are left, and whether it succeeds or fails, it takes the first
    of these tokens and never the end of the text. A part takes at least one if it is read. -/
theorem progress (routine : Routine) (s : Parser) : ∃ answer s' tokens,
    routine.run s = some (answer, s') ∧
    (∀ fuel, s.left.length < fuel → ofParse (routine.bounded fuel) s = some (answer, s')) ∧
    s.Takes tokens s' ∧ (∀ token ∈ tokens, token.kind ≠ .eof) ∧ s.left = tokens ++ s'.left ∧
    (routine.isPart = true → ∀ value, answer = .ok value → tokens ≠ []) := by
  have same : ∀ fuel, s.left.length < fuel → routine.run s = ofParse (routine.bounded fuel) s :=
    fun fuel => routine.agrees fuel s
  let enough := s.left.length + 1
  obtain ⟨answer, s', items, ran, steps⟩ := (routine.stepwise enough).exists_steps s
  have ends := (same enough (Nat.lt_succ_self _)).trans ran
  obtain ⟨tokens, takes, some⟩ := steps.takes
  have left := steps.left_eq takes some
  refine ⟨answer, s', tokens, ends, ?_, takes, some, left, ?_⟩
  · intro fuel less
    exact (same fuel less).symm.trans ends
  · rintro isPart value rfl rfl
    have fewer := (advances isPart enough).left_lt s value s' (ofParse_eq_ok.mp ran)
    rw [left, List.nil_append] at fewer
    exact Nat.lt_irrefl _ fewer

end Routine

end Wordlang
