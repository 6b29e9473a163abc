import Wordlang.Compile
import Wordlang.Proofs.Success
import Mathlib.Data.List.Nodup

/-! # Numbering of nodes

No two expression nodes of a program that was read have the same id. Whatever reads a
part of the text numbers its nodes upwards from the next id on, so that parts read one
after the other have different ids.
-/

namespace Wordlang

/-- Increasing ids from a low one up to a high one. -/
structure Within (ids : List Nat) (low high : Nat) : Prop where
  le : low ≤ high
  sorted : ids.Pairwise (· < ·)
  bounds : ∀ id ∈ ids, low ≤ id ∧ id < high

namespace Within

variable {ids more : List Nat} {low mid high : Nat}

theorem nodup (within : Within ids low high) : ids.Nodup := within.sorted.imp Nat.ne_of_lt

theorem nil (low : Nat) : Within [] low low := ⟨Nat.le_refl low, .nil, nofun⟩

theorem append (first : Within ids low mid) (second : Within more mid high) :
    Within (ids ++ more) low high := by
  constructor
  · exact Nat.le_trans first.le second.le
  · refine List.pairwise_append.mpr ⟨first.sorted, second.sorted, fun id mem id' mem' => ?_⟩
    exact Nat.lt_of_lt_of_le (first.bounds id mem).2 (second.bounds id' mem').1
  · intro id mem
    have := first.le
    have := second.le
    rcases List.mem_append.mp mem with mem | mem
    · have := first.bounds id mem
      omega
    · have := second.bounds id mem
      omega

theorem sublist (within : Within ids low high) (sub : more.Sublist ids) : Within more low high :=
  ⟨within.le, within.sorted.sublist sub, fun id mem => within.bounds id (sub.subset mem)⟩

theorem mono {high' : Nat} (within : Within ids low high) (le : high ≤ high') :
    Within ids low high' :=
  ⟨Nat.le_trans within.le le, within.sorted,
    fun id mem => (within.bounds id mem).imp_right (Nat.lt_of_lt_of_le · le)⟩

end Within

/-- Work on a parser that takes up nodes: with the ids at its start in hand, it ends with
    the ids of its result, in the order in which they were given out. -/
def Parse.Numbers {α : Type} (work : Parse α) (start : List Nat) (ids : α → List Nat) : Prop :=
  ∀ low s a s', Within start low s.nextId → work s = .ok a s' → Within (ids a) low s'.nextId

namespace Parse.Numbers

variable {α β : Type} {work : Parse α} {start : List Nat} {ids ids' : α → List Nat}

theorem pure (a : α) (sub : (ids a).Sublist start) : Numbers (Pure.pure a) start ids := by
  intro low s _ _ within ran
  obtain ⟨rfl, rfl⟩ := run_pure_eq_ok.mp ran
  exact within.sublist sub

theorem bind {next : α → Parse β} {later : β → List Nat} (first : work.Numbers start ids)
    (second : ∀ a, (next a).Numbers (ids a) later) : Numbers (work >>= next) start later := by
  intro low s b s' within ran
  obtain ⟨a, s₁, ran, ran'⟩ := run_bind_eq_ok.mp ran
  exact second a low s₁ b s' (first low s a s₁ within ran) ran'

theorem frame (h : work.Numbers [] ids) (start : List Nat) :
    work.Numbers start fun a => start ++ ids a := by
  intro low s a s' within ran
  exact within.append (h s.nextId s a s' (.nil _) ran)

theorem onStream (work : Reading α) (start : List Nat) :
    (Parser.onStream work).Numbers start fun _ => start := by
  rintro low ⟨stream, nextId⟩ a s' within ran
  simp only [Parser.onStream] at ran
  split at ran
  · obtain ⟨rfl, rfl⟩ := EStateM.Result.ok.inj ran
    exact within
  · exact absurd ran nofun

theorem node (line : Nat) (start : List Nat) :
    (Parser.node line).Numbers start fun node => start ++ [node.id] := by
  rintro low ⟨stream, nextId⟩ a s' within ran
  obtain ⟨rfl, rfl⟩ := EStateM.Result.ok.inj ran
  apply within.append
  refine ⟨Nat.le_succ _, List.pairwise_singleton _ _, ?_⟩
  intro id mem
  obtain rfl := List.mem_singleton.mp mem
  exact ⟨Nat.le_refl _, Nat.lt_succ_self _⟩

theorem unexpected (wanted : Nonterminal) :
    (Parser.unexpected wanted).Numbers start ids := by
  intro low s a s' _ ran
  obtain ⟨token, s₁, _, ran⟩ := run_bind_eq_ok.mp ran
  exact absurd ran nofun

theorem whileM {test : Parse Bool} {item : Parse α}
    (tests : ∀ start, test.Numbers start fun _ => start)
    (items : item.Numbers [] ids) (fuel : Nat) :
    (Parser.whileM test item fuel).Numbers [] fun as => as.flatMap ids := by
  induction fuel with
  | zero => exact .pure [] (.refl _)
  | succ fuel ih =>
      apply (tests []).bind
      intro goesOn
      split
      · apply items.bind
        intro first
        apply (ih.frame (ids first)).bind
        intro rest
        exact .pure (first :: rest) (.refl _)
      · exact .pure [] (.refl _)

theorem sees (wanted : Token.Class) (start : List Nat) :
    (Parser.sees wanted).Numbers start fun _ => start :=
  (onStream _ start).bind fun _ => .pure _ (.refl _)

theorem accept (mark : Punct) (start : List Nat) :
    (Parser.accept mark).Numbers start fun _ => start := by
  apply (sees _ start).bind
  intro seen
  split
  · exact (onStream _ start).bind fun _ => .pure _ (.refl _)
  · exact .pure _ (.refl _)

theorem acceptWord (word : Keyword) (start : List Nat) :
    (Parser.acceptWord word).Numbers start fun _ => start := by
  apply (sees _ start).bind
  intro seen
  split
  · exact (onStream _ start).bind fun _ => .pure _ (.refl _)
  · exact .pure _ (.refl _)

theorem commaList {item : Parse α} (items : item.Numbers [] ids) (fuel : Nat) :
    (Parser.commaList item fuel).Numbers [] fun as => as.flatMap ids := by
  apply items.bind
  intro first
  apply ((whileM (accept .comma) items fuel).frame (ids first)).bind
  intro rest
  exact .pure (first :: rest) (.refl _)

theorem parenList {item : Parse α} (items : item.Numbers [] ids) (fuel : Nat) :
    (Parser.parenList item fuel).Numbers [] fun as => as.flatMap ids := by
  apply (accept .closeParen []).bind
  intro empty
  split
  · exact .pure [] (.refl _)
  · apply (commaList items fuel).bind
    intro as
    exact (onStream _ _).bind fun _ => .pure as (.refl _)

end Parse.Numbers

namespace Parser

open Parse (Numbers)

section Expr

variable {operand inner : Parse Expr}

private theorem chain_numbers (operands : operand.Numbers [] Expr.ids) (level : BinOp.Level)
    (fuel : Nat)
    (left : Expr) : (chain operand level fuel left).Numbers left.ids Expr.ids := by
  induction fuel generalizing left with
  | zero => exact .pure left (.refl _)
  | succ fuel ih =>
      apply (Numbers.onStream _ left.ids).bind
      intro token
      split
      · exact .pure left (.refl _)
      · next op _ =>
        apply (Numbers.onStream _ left.ids).bind
        intro _
        apply (operands.frame left.ids).bind
        intro right
        apply (Numbers.node token.line _).bind
        intro node
        have ids : (Expr.binary node op left right).ids = left.ids ++ right.ids ++ [node.id] := by
          simp [Expr.ids, Expr.parts, Expr.id, Expr.node]
        rw [← ids]
        exact ih _

private theorem binary_numbers (operands : operand.Numbers [] Expr.ids) (fuel : Nat)
    (levels : List BinOp.Level) : (binary operand fuel levels).Numbers [] Expr.ids := by
  induction levels with
  | nil => exact operands
  | cons level tighter ih => exact ih.bind fun left => chain_numbers ih level fuel left

private theorem unary_numbers (operands : operand.Numbers [] Expr.ids) (fuel : Nat) :
    (unary operand fuel).Numbers [] Expr.ids := by
  induction fuel with
  | zero => exact operands
  | succ fuel ih =>
      apply (Numbers.onStream _ []).bind
      intro token
      split
      · exact operands
      · next op _ =>
        apply (Numbers.onStream _ []).bind
        intro _
        apply ih.bind
        intro e
        apply (Numbers.node token.line _).bind
        intro node
        exact .pure _ (by simp [Expr.ids, Expr.parts, Expr.id, Expr.node])

private theorem primary_numbers (inners : inner.Numbers [] Expr.ids) :
    (primary inner).Numbers [] Expr.ids := by
  apply (Numbers.onStream _ []).bind
  intro token
  split
  · apply (Numbers.onStream _ []).bind
    intro _
    exact (Numbers.node token.line []).bind fun node => .pure _ (.refl _)
  · apply (Numbers.onStream _ []).bind
    intro _
    exact (Numbers.node token.line []).bind fun node => .pure _ (.refl _)
  · apply (Numbers.onStream _ []).bind
    intro _
    exact (Numbers.node token.line []).bind fun node => .pure _ (.refl _)
  · apply (Numbers.onStream _ []).bind
    intro _
    apply (Numbers.accept .openBracket []).bind
    intro isElement
    split
    · apply inners.bind
      intro index
      apply (Numbers.onStream _ index.ids).bind
      intro _
      apply (Numbers.node token.line _).bind
      intro node
      exact .pure _ (by simp [Expr.ids, Expr.parts, Expr.id, Expr.node])
    · exact (Numbers.node token.line []).bind fun node => .pure _ (.refl _)
  · apply (Numbers.onStream _ []).bind
    intro _
    apply inners.bind
    intro e
    exact (Numbers.onStream _ e.ids).bind fun _ => .pure e (.refl _)
  · apply (Numbers.onStream _ []).bind
    intro _
    apply inners.bind
    intro e
    apply (Numbers.onStream _ e.ids).bind
    intro _
    apply (Numbers.node token.line _).bind
    intro node
    exact .pure _ (by simp [Expr.ids, Expr.parts, Expr.id, Expr.node])
  · exact .unexpected _

theorem expr_numbers (fuel : Nat) : (expr fuel).Numbers [] Expr.ids := by
  induction fuel with
  | zero => exact .unexpected _
  | succ fuel ih => exact binary_numbers (unary_numbers (primary_numbers ih) _) _ _

end Expr

def callIds : Option (String × List Expr) → List Nat
  | some (_, args) => args.flatMap Expr.ids
  | none => []

theorem callOf_numbers (value : Expr) (fuel : Nat) :
    (callOf value fuel).Numbers [] callIds := by
  unfold callOf
  split
  · apply (Numbers.accept .openParen []).bind
    intro isCall
    split
    · apply (Numbers.parenList (expr_numbers fuel) fuel).bind
      intro args
      exact .pure _ (.refl _)
    · exact .pure _ (.refl _)
  · exact .pure _ (.refl _)

private theorem assignment_numbers (target : String) (line fuel : Nat) :
    (assignment target line fuel).Numbers [] fun stmt => stmt.exprs.flatMap Expr.ids := by
  apply (expr_numbers fuel).bind
  intro value
  apply ((callOf_numbers value fuel).frame value.ids).bind
  intro call
  apply (Numbers.onStream _ _).bind
  intro _
  cases call with
  | none => exact .pure _ (.refl _)
  | some call => exact .pure _ (List.sublist_append_right _ _)

private theorem indexAssignment_numbers (target : String) (index : Expr) (line fuel : Nat) :
    (indexAssignment target index line fuel).Numbers index.ids
      fun stmt => stmt.exprs.flatMap Expr.ids := by
  apply ((expr_numbers fuel).frame index.ids).bind
  intro value
  apply ((callOf_numbers value fuel).frame (index.ids ++ value.ids)).bind
  intro call
  apply (Numbers.onStream _ _).bind
  intro _
  cases call with
  | none => exact .pure _ (by simp [Stmt.exprs, callIds])
  | some call => exact .pure _ (by simp [Stmt.exprs, callIds])

theorem condition_numbers (fuel : Nat) : (condition fuel).Numbers [] Expr.ids := by
  apply (Numbers.onStream _ []).bind
  intro _
  apply (expr_numbers fuel).bind
  intro cond
  exact (Numbers.onStream _ cond.ids).bind fun _ => .pure cond (.refl _)

theorem flatMap_exprs (stmts : List Stmt) :
    (stmts.flatMap fun stmt => stmt.exprs.flatMap Expr.ids) = Stmt.idsAll stmts := by
  induction stmts with
  | nil => rfl
  | cons stmt rest ih =>
      rw [List.flatMap_cons, ih, Stmt.idsAll, Stmt.idsAll, Stmt.exprsAll, List.flatMap_append]

private theorem block_numbers {stmt : Parse Stmt}
    (stmts : stmt.Numbers [] fun stmt => stmt.exprs.flatMap Expr.ids) (fuel : Nat) :
    (block stmt fuel).Numbers [] Stmt.idsAll := by
  apply (Numbers.onStream _ []).bind
  intro _
  have goesOn : ∀ start, Parse.Numbers (do return !(← accept .closeBrace)) start fun _ => start :=
    fun start => (Numbers.accept .closeBrace start).bind fun _ => .pure _ (.refl _)
  simpa only [flatMap_exprs] using Numbers.whileM goesOn stmts fuel

private theorem stmt_numbers (fuel : Nat) :
    (stmt fuel).Numbers [] fun stmt => stmt.exprs.flatMap Expr.ids := by
  induction fuel with
  | zero => exact .unexpected _
  | succ fuel ih =>
      have blocks := block_numbers ih fuel.succ
      apply (Numbers.onStream _ []).bind
      intro token
      split
      · next target _ =>
        apply (Numbers.onStream _ []).bind
        intro _
        apply (Numbers.accept .openBracket []).bind
        intro isElement
        split
        · apply (expr_numbers fuel.succ).bind
          intro index
          apply (Numbers.onStream _ index.ids).bind
          intro _
          apply (Numbers.onStream _ index.ids).bind
          intro _
          exact indexAssignment_numbers target index token.line fuel.succ
        · apply (Numbers.onStream _ []).bind
          intro _
          exact assignment_numbers target token.line fuel.succ
      · apply (Numbers.onStream _ []).bind
        intro _
        apply (condition_numbers fuel.succ).bind
        intro cond
        apply (blocks.frame cond.ids).bind
        intro thens
        apply (Numbers.acceptWord .else_ _).bind
        intro hasElse
        split
        · apply (blocks.frame (cond.ids ++ Stmt.idsAll thens)).bind
          intro elses
          exact .pure _ (by simp [Stmt.exprs, Stmt.idsAll])
        · exact .pure _ (.refl _)
      · apply (Numbers.onStream _ []).bind
        intro _
        apply (condition_numbers fuel.succ).bind
        intro cond
        apply (blocks.frame cond.ids).bind
        intro body
        exact .pure _ (.refl _)
      · exact blocks.bind fun body => .pure _ (.refl _)
      · exact .unexpected _

theorem type_numbers (start : List Nat) : type.Numbers start fun _ => start := by
  apply (Numbers.onStream _ start).bind
  intro token
  split
  · exact (Numbers.onStream _ start).bind fun _ => .pure _ (.refl _)
  · exact (Numbers.onStream _ start).bind fun _ => .pure _ (.refl _)
  · apply (Numbers.onStream _ start).bind
    intro _
    apply (Numbers.onStream _ start).bind
    intro _
    apply (Numbers.onStream _ start).bind
    intro length
    exact (Numbers.onStream _ start).bind fun _ => .pure _ (.refl _)
  · exact .unexpected _

private theorem param_numbers : param.Numbers [] fun _ => [] := by
  apply (Numbers.onStream _ []).bind
  intro token
  apply (Numbers.onStream _ []).bind
  intro name
  apply (Numbers.onStream _ []).bind
  intro _
  exact (type_numbers []).bind fun _ => .pure _ (.refl _)

private theorem decl_numbers (fuel : Nat) : (decl fuel).Numbers [] fun _ => [] := by
  apply (Numbers.onStream _ []).bind
  intro token
  apply (Numbers.onStream _ []).bind
  intro _
  have nameless : ident.Numbers [] fun _ => [] := Numbers.onStream _ []
  apply (Numbers.commaList nameless fuel).bind
  intro names
  apply (Numbers.onStream _ _).bind
  intro _
  apply (type_numbers _).bind
  intro type
  apply (Numbers.onStream _ _).bind
  intro _
  exact .pure _ (List.nil_sublist _)

private theorem bodyGoesOn_numbers (start : List Nat) :
    bodyGoesOn.Numbers start fun _ => start := by
  apply (Numbers.onStream _ start).bind
  intro token
  split
  · exact .pure _ (.refl _)
  · exact (Numbers.onStream _ start).bind fun _ => .pure _ (.refl _)
  · exact (Numbers.onStream _ start).bind fun _ => .pure _ (.refl _)
  · exact .pure _ (.refl _)

private theorem func_numbers (fuel : Nat) :
    (func fuel).Numbers [] fun func => func.exprs.flatMap Expr.ids := by
  apply (Numbers.onStream _ []).bind
  intro token
  apply (Numbers.onStream _ []).bind
  intro _
  apply (Numbers.onStream _ []).bind
  intro name
  apply (Numbers.onStream _ []).bind
  intro _
  apply (Numbers.parenList param_numbers fuel).bind
  intro params
  apply (Numbers.onStream _ _).bind
  intro _
  apply (type_numbers _).bind
  intro returns
  apply (Numbers.onStream _ _).bind
  intro _
  apply ((Numbers.whileM (Numbers.sees _) (decl_numbers fuel) fuel).frame _).bind
  intro decls
  apply ((Numbers.whileM bodyGoesOn_numbers (stmt_numbers fuel) fuel).frame _).bind
  intro body
  apply (Numbers.onStream _ _).bind
  intro _
  apply ((expr_numbers fuel).frame _).bind
  intro result
  apply (Numbers.onStream _ _).bind
  intro _
  apply (Numbers.onStream _ _).bind
  intro _
  apply Numbers.pure
  rw [flatMap_exprs, List.append_assoc, List.append_assoc]
  have own : (Stmt.exprsAll body ++ [result]).flatMap Expr.ids =
      Stmt.idsAll body ++ result.ids := by
    simp [Stmt.idsAll]
  exact own ▸ (List.sublist_append_right _ _).trans (List.sublist_append_right _ _)

theorem program_numbers : program.Numbers [] Program.ids := by
  have budget : Parser.budget.Numbers [] fun _ => [] := by
    rintro low ⟨stream, nextId⟩ fuel s' within ran
    obtain ⟨rfl, rfl⟩ := EStateM.Result.ok.inj ran
    exact within
  apply budget.bind
  intro fuel
  apply (Numbers.whileM (Numbers.sees _) (func_numbers fuel) fuel).bind
  intro funcs
  apply (Numbers.sees .eof _).bind
  intro atEnd
  split
  · exact .pure _ (by simp [Program.ids, List.flatMap_assoc])
  · exact .unexpected _

end Parser

/-- The nodes of a program that was read have different ids. -/
theorem Program.ids_nodup {text : String} {program : Program}
    (read : (readProgram text).result = .ok program) : program.ids.Nodup := by
  unfold readProgram at read
  split at read
  · next ran =>
    obtain rfl := Except.ok.inj read
    exact (Parser.program_numbers 0 _ _ _ (.nil 0) ran).nodup
  · exact absurd read nofun

end Wordlang
