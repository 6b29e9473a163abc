import Wordlang.Proofs.Reading.Stmt
import Wordlang.Tree.Stand

/-! # Places of expressions among tokens

A tree that is read from some tokens has a place among them for each of its expressions. The
places are listed as the expressions are, operands before operators: of any two, the first one
lies in the second one or in front of it.
-/

namespace Wordlang

open Token (Kind)

namespace Stand

variable {stand : Stand} {start start' : Nat} {kinds outer : List Kind}

theorem covers_self {rank : Nat} {e : Expr} (spelled : e.Spelled rank kinds) {stop : Nat}
    (at_ : stop = start + kinds.length) : Covers start kinds ⟨e, start, stop⟩ :=
  ⟨[], kinds, [], (List.append_nil kinds).symm, rfl, at_, spelled.of_le (Nat.zero_le _)⟩

theorem Covers.within (covers : stand.Covers start kinds) (before after : List Kind)
    (same : outer = before ++ kinds ++ after) (at_ : start = start' + before.length) :
    stand.Covers start' outer := by
  obtain ⟨before', own, after', rfl, first, stop, spelled⟩ := covers
  refine ⟨before ++ before', own, after' ++ after, by simp [same], ?_, stop, spelled⟩
  rw [first, at_, List.length_append, Nat.add_assoc]

theorem Covers.bounds (covers : stand.Covers start kinds) :
    start ≤ stand.first ∧ stand.first < stand.stop ∧ stand.stop ≤ start + kinds.length := by
  obtain ⟨before, own, after, rfl, first, stop, spelled⟩ := covers
  have some := spelled.length_pos
  rw [List.length_append, List.length_append]
  omega

/-- Of two places, the first one is that of a part of the second expression, or lies in front
    of it. -/
def Ordered (stand other : Stand) : Prop :=
  stand.expr ∈ other.expr.parts ∨ stand.stop ≤ other.first

end Stand

open Stand (Ordered)

namespace Expr

variable {rank start : Nat} {e : Expr} {kinds : List Kind} {stands : List Stand}

theorem Spelled.exists_stands (spelled : e.Spelled rank kinds) (start : Nat) :
    ∃ stands, e.Stands rank start kinds stands := by
  induction spelled generalizing start with
  | looser _ ih =>
      obtain ⟨_, stands⟩ := ih start
      exact ⟨_, .looser stands⟩
  | int => exact ⟨_, .int⟩
  | bool => exact ⟨_, .bool⟩
  | var => exact ⟨_, .var⟩
  | index _ ih =>
      obtain ⟨_, stands⟩ := ih (start + 2)
      exact ⟨_, .index stands⟩
  | parens _ ih =>
      obtain ⟨_, stands⟩ := ih (start + 1)
      exact ⟨_, .parens stands⟩
  | magnitude _ ih =>
      obtain ⟨_, stands⟩ := ih (start + 1)
      exact ⟨_, .magnitude stands⟩
  | neg _ ih =>
      obtain ⟨_, stands⟩ := ih (start + 1)
      exact ⟨_, .neg stands⟩
  | not _ ih =>
      obtain ⟨_, stands⟩ := ih (start + 1)
      exact ⟨_, .not stands⟩
  | @binary _ _ _ _ first _ _ _ ihLeft ihRight =>
      obtain ⟨_, left⟩ := ihLeft start
      obtain ⟨_, right⟩ := ihRight (start + first.length + 1)
      exact ⟨_, .binary left right⟩

namespace Stands

/-- Places are given to expressions that are spelled. -/
theorem spelled (stands_ : e.Stands rank start kinds stands) : e.Spelled rank kinds := by
  induction stands_ with
  | looser _ ih => exact .looser ih
  | int => exact .int
  | bool => exact .bool
  | var => exact .var
  | index _ ih => exact .index ih
  | parens _ ih => exact .parens ih
  | magnitude _ ih => exact .magnitude ih
  | neg _ ih => exact .neg ih
  | not _ ih => exact .not ih
  | binary _ _ ihLeft ihRight => exact .binary ihLeft ihRight

theorem exprs (stands_ : e.Stands rank start kinds stands) : stands.map Stand.expr = e.parts := by
  induction stands_ with
  | looser _ ih | parens _ ih => exact ih
  | int | bool | var => rfl
  | index _ ih | magnitude _ ih | neg _ ih | not _ ih => simp [parts, ih]
  | binary _ _ ihLeft ihRight => simp [parts, ihLeft, ihRight]

theorem covers (stands_ : e.Stands rank start kinds stands) :
    ∀ stand ∈ stands, stand.Covers start kinds := by
  have root : ∀ {rank start e kinds stop} {inner : List Stand}, e.Spelled rank kinds →
      stop = start + kinds.length → (∀ stand ∈ inner, stand.Covers start kinds) →
      ∀ stand ∈ inner ++ [⟨e, start, stop⟩], stand.Covers start kinds :=
    fun spelled at_ covers => List.forall_mem_append.mpr
      ⟨covers, List.forall_mem_singleton.mpr (Stand.covers_self spelled at_)⟩
  induction stands_ with
  | looser _ ih => exact ih
  | int => exact root .int rfl (List.forall_mem_nil _)
  | bool => exact root .bool rfl (List.forall_mem_nil _)
  | var => exact root .var rfl (List.forall_mem_nil _)
  | @index _ _ name _ _ _ inner ih =>
      exact root (.index inner.spelled) (by simp; omega) fun stand mem =>
        (ih stand mem).within [.ident name, .punct .openBracket] [.punct .closeBracket] rfl rfl
  | parens _ ih =>
      exact fun stand mem =>
        (ih stand mem).within [.punct .openParen] [.punct .closeParen] rfl rfl
  | magnitude inner ih =>
      exact root (.magnitude inner.spelled) (by simp; omega) fun stand mem =>
        (ih stand mem).within [.punct .bar] [.punct .bar] rfl rfl
  | neg inner ih =>
      exact root (.neg inner.spelled) (by simp; omega) fun stand mem =>
        (ih stand mem).within [.punct .minus] [] (by simp) rfl
  | not inner ih =>
      exact root (.not inner.spelled) (by simp; omega) fun stand mem =>
        (ih stand mem).within [.punct .not] [] (by simp) rfl
  | @binary _ _ op _ _ first second _ _ left right ihLeft ihRight =>
      refine root (.binary left.spelled right.spelled) (by simp; omega) ?_
      refine List.forall_mem_append.mpr ⟨fun stand mem => ?_, fun stand mem => ?_⟩
      · exact (ihLeft stand mem).within [] (.punct op.mark :: second) rfl rfl
      · exact (ihRight stand mem).within (first ++ [.punct op.mark]) [] (by simp)
          (by simp [Nat.add_assoc])

theorem mem_parts (stands_ : e.Stands rank start kinds stands) {stand : Stand}
    (mem : stand ∈ stands) : stand.expr ∈ e.parts :=
  stands_.exprs ▸ List.mem_map_of_mem mem

/-- The parts of an expression stand in each other or one in front of the other. -/
theorem ordered (stands_ : e.Stands rank start kinds stands) : stands.Pairwise Ordered := by
  have root : ∀ {stand : Stand} {inner : List Stand}, inner.Pairwise Ordered →
      (∀ other ∈ inner, other.expr ∈ stand.expr.parts) → (inner ++ [stand]).Pairwise Ordered :=
    fun ordered within => List.pairwise_append.mpr ⟨ordered, List.pairwise_singleton _ _,
      fun other mem _ isRoot => .inl (List.mem_singleton.mp isRoot ▸ within other mem)⟩
  induction stands_ with
  | looser _ ih | parens _ ih => exact ih
  | int | bool | var => exact List.pairwise_singleton _ _
  | index inner ih | magnitude inner ih | neg inner ih | not inner ih =>
      exact root ih fun other mem => List.mem_append_left _ (inner.mem_parts mem)
  | binary left right ihLeft ihRight =>
      refine root (List.pairwise_append.mpr ⟨ihLeft, ihRight, ?_⟩) ?_
      · -- The operator stands between the operands.
        intro stand mem other mem'
        have before := (left.covers stand mem).bounds
        have behind := (right.covers other mem').bounds
        exact .inr (by omega)
      · refine List.forall_mem_append.mpr ⟨fun other mem => ?_, fun other mem => ?_⟩
        · exact List.mem_append_left _ (List.mem_append_left _ (left.mem_parts mem))
        · exact List.mem_append_left _ (List.mem_append_right _ (right.mem_parts mem))

end Stands

end Expr

namespace Segment

def wholes (segments : List Segment) : List Expr :=
  segments.filterMap fun
    | expr e => some e
    | _ => none

section Wholes

variable {segments : List Segment}

@[simp] theorem wholes_nil : wholes [] = [] := rfl

@[simp] theorem wholes_marks {kinds : List Kind} :
    wholes (marks kinds :: segments) = wholes segments := rfl

@[simp] theorem wholes_callee {name : String} :
    wholes (callee name :: segments) = wholes segments := rfl

@[simp] theorem wholes_expr {e : Expr} : wholes (expr e :: segments) = e :: wholes segments := rfl

@[simp] theorem wholes_append {later : List Segment} :
    wholes (segments ++ later) = wholes segments ++ wholes later := List.filterMap_append

@[simp] theorem wholes_args (es : List Expr) : wholes (args es) = es := by
  have commas : wholes ((es.map expr).intersperse (marks [.punct .comma])) = es := by
    induction es with
    | nil => rfl
    | cons e rest ih =>
        cases rest with
        | nil => rfl
        | cons next rest => simpa using ih
  simp [args, commas]

end Wholes

namespace Stands

variable {start : Nat} {segments : List Segment} {kinds : List Kind} {stands : List Stand}

theorem append {rest : List Segment} {later : List Kind} {others : List Stand}
    (first : Stands start segments kinds stands)
    (second : Stands (start + kinds.length) rest later others) :
    Stands start (segments ++ rest) (kinds ++ later) (stands ++ others) := by
  induction first with
  | nil => exact second
  | marks _ ih =>
      rw [List.length_append, ← Nat.add_assoc] at second
      rw [List.append_assoc]
      exact .marks (ih second)
  | callee spelled _ ih =>
      rw [List.length_append, ← Nat.add_assoc] at second
      rw [List.append_assoc]
      exact .callee spelled (ih second)
  | expr own _ ih =>
      rw [List.length_append, ← Nat.add_assoc] at second
      rw [List.append_assoc, List.append_assoc]
      exact .expr own (ih second)

theorem exprs (stands_ : Stands start segments kinds stands) :
    stands.map Stand.expr = (wholes segments).flatMap Expr.parts := by
  induction stands_ with
  | nil => rfl
  | marks _ ih | callee _ _ ih => exact ih
  | expr own _ ih => simp [own.exprs, ih]

theorem covers (stands_ : Stands start segments kinds stands) :
    ∀ stand ∈ stands, stand.Covers start kinds := by
  have behind : ∀ {start : Nat} {kinds later : List Kind} {stand : Stand},
      stand.Covers (start + kinds.length) later → stand.Covers start (kinds ++ later) :=
    fun covers => covers.within _ [] (List.append_nil _).symm rfl
  induction stands_ with
  | nil => exact List.forall_mem_nil _
  | marks _ ih | callee _ _ ih => exact fun stand mem => behind (ih stand mem)
  | @expr _ _ _ later _ _ _ own _ ih =>
      refine List.forall_mem_append.mpr ⟨fun stand mem => ?_, fun stand mem => ?_⟩
      · exact (own.covers stand mem).within [] later rfl rfl
      · exact behind (ih stand mem)

/-- Of two expressions, the first one is a part of the second one or stands in front of it. -/
theorem ordered (stands_ : Stands start segments kinds stands) : stands.Pairwise Ordered := by
  induction stands_ with
  | nil => exact .nil
  | marks _ ih | callee _ _ ih => exact ih
  | expr own others ih =>
      refine List.pairwise_append.mpr ⟨own.ordered, ih, fun stand mem other mem' => .inr ?_⟩
      have before := (own.covers stand mem).bounds
      have behind := (others.covers other mem').bounds
      omega

end Stands

/-- Segments can be written with some tokens, wherever these begin. -/
def Writes (segments : List Segment) (kinds : List Kind) : Prop :=
  ∀ start, ∃ stands, Stands start segments kinds stands

namespace Writes

variable {segments rest : List Segment} {kinds own later : List Kind}

theorem nil : Writes [] [] := fun _ => ⟨_, .nil⟩

theorem marks (others : Writes rest later) : Writes (.marks kinds :: rest) (kinds ++ later) := by
  intro start
  obtain ⟨_, stands⟩ := others (start + kinds.length)
  exact ⟨_, .marks stands⟩

theorem callee {node : Node} {name : String} (spelled : (Expr.var node name).Spelled 0 kinds)
    (others : Writes rest later) : Writes (.callee name :: rest) (kinds ++ later) := by
  intro start
  obtain ⟨_, stands⟩ := others (start + kinds.length)
  exact ⟨_, .callee spelled stands⟩

theorem expr {e : Expr} (spelled : e.Spelled 0 kinds) (others : Writes rest later) :
    Writes (.expr e :: rest) (kinds ++ later) := by
  intro start
  obtain ⟨_, own⟩ := spelled.exists_stands start
  obtain ⟨_, stands⟩ := others (start + kinds.length)
  exact ⟨_, .expr own stands⟩

theorem append (first : Writes segments own) (others : Writes rest later) :
    Writes (segments ++ rest) (own ++ later) := by
  intro start
  obtain ⟨_, stands⟩ := first start
  obtain ⟨_, stands'⟩ := others (start + own.length)
  exact ⟨_, stands.append stands'⟩

theorem of_eq {kinds' : List Kind} (writes : Writes segments kinds') (same : kinds' = kinds) :
    Writes segments kinds := same ▸ writes

theorem commas {es : List Expr} (spelled : Spelling.Commas (Expr.Spelled 0) es kinds) :
    Writes ((es.map Segment.expr).intersperse (.marks [.punct .comma])) kinds := by
  induction spelled with
  | last isOne => exact (expr isOne nil).of_eq (List.append_nil _)
  | more isOne others ih =>
      cases others with
      | last => exact expr isOne (marks ih)
      | more => exact expr isOne (marks ih)

theorem args {es : List Expr} (spelled : Spelling.Parens (Expr.Spelled 0) es kinds) :
    Writes (Segment.args es) kinds := by
  cases spelled with
  | none => exact marks (marks nil)
  | some spelled => exact (marks ((commas spelled).append (marks nil))).of_eq (by simp)

end Writes

end Segment

mutual

theorem Stmt.wholes_segments (stmt : Stmt) : Segment.wholes stmt.segments = stmt.exprs := by
  cases stmt with
  | assign | assignIndex | call | callIndex => simp [segments, exprs]
  | when _ body | loop _ body | block body =>
      simp [segments, exprs, wholes_segmentsAll body]
  | choose _ thens elses =>
      simp [segments, exprs, wholes_segmentsAll thens, wholes_segmentsAll elses]

theorem Stmt.wholes_segmentsAll (stmts : List Stmt) :
    Segment.wholes (segmentsAll stmts) = exprsAll stmts := by
  cases stmts with
  | nil => rfl
  | cons stmt rest =>
      simp [segmentsAll, exprsAll, wholes_segments stmt, wholes_segmentsAll rest]

end

open Segment.Writes in
mutual

theorem Stmt.Loose.writes {stmt : Stmt} {kinds : List Kind} (loose : stmt.Loose kinds) :
    Segment.Writes stmt.segments kinds := by
  cases loose with
  | assign value => exact (marks (expr value (marks nil))).of_eq (by simp)
  | assignIndex index value =>
      exact (marks (expr index (marks (expr value (marks nil))))).of_eq (by simp)
  | call name isArgs =>
      exact ((marks (callee name (args isArgs))).append (marks nil)).of_eq (by simp)
  | callIndex index name isArgs =>
      exact ((marks (expr index (marks (callee name (args isArgs))))).append (marks nil)).of_eq
        (by simp)
  | when cond body =>
      have inner := writes_of_sequence body
      exact ((marks (expr cond (marks inner))).append (marks nil)).of_eq (by simp)
  | choose cond thens elses =>
      have first := writes_of_sequence thens
      have second := writes_of_sequence elses
      exact (((marks (expr cond (marks first))).append (marks second)).append (marks nil)).of_eq
        (by simp)
  | loop cond body =>
      have inner := writes_of_sequence body
      exact ((marks (expr cond (marks inner))).append (marks nil)).of_eq (by simp)
  | block body =>
      have inner := writes_of_sequence body
      exact ((marks inner).append (marks nil)).of_eq (by simp)

theorem Stmt.writes_of_sequence {stmts : List Stmt} {kinds : List Kind}
    (spelled : Spelling.Sequence Stmt.Loose stmts kinds) :
    Segment.Writes (segmentsAll stmts) kinds := by
  cases spelled with
  | nil =>
      rw [segmentsAll]
      exact .nil
  | cons first rest =>
      rw [segmentsAll]
      exact first.writes.append (writes_of_sequence rest)

end

namespace Spelling

theorem Commas.kinds_eq {α : Type} {tokens : α → List Kind} {items : List α} {kinds : List Kind}
    (spelled : Commas (fun a kinds => kinds = tokens a) items kinds) :
    kinds = commas (items.map tokens) := by
  induction spelled with
  | last isOne => simp [commas, isOne]
  | more isOne others ih =>
      cases others with
      | last => simp [commas, isOne, ih]
      | more => simp [commas, isOne, ih]

theorem Parens.kinds_eq {α : Type} {tokens : α → List Kind} {items : List α} {kinds : List Kind}
    (spelled : Parens (fun a kinds => kinds = tokens a) items kinds) :
    kinds = .punct .openParen :: commas (items.map tokens) ++ [.punct .closeParen] := by
  cases spelled with
  | none => rfl
  | some spelled => rw [spelled.kinds_eq]

theorem decl_eq {decl : Wordlang.Decl} {kinds : List Kind} (spelled : Decl decl kinds) :
    kinds = Spelling.decl decl := by
  obtain ⟨names, spelled, rfl⟩ := spelled
  rw [spelled.kinds_eq, Spelling.decl]

theorem Sequence.kinds_eq {α : Type} {one : α → List Kind → Prop} {tokens : α → List Kind}
    {items : List α} {kinds : List Kind} (spelled : Sequence one items kinds)
    (same : ∀ {a own}, one a own → own = tokens a) : kinds = items.flatMap tokens := by
  induction spelled with
  | nil => rfl
  | cons isOne _ ih => rw [List.flatMap_cons, same isOne, ih]

end Spelling

@[simp] theorem Func.wholes_segments (func : Func) :
    Segment.wholes func.segments = func.exprs := by
  simp [segments, exprs, Stmt.wholes_segmentsAll]

theorem Program.wholes_segments (program : Program) :
    Segment.wholes (List.flatMap Func.segments program) = List.flatMap Func.exprs program := by
  induction program with
  | nil => rfl
  | cons func rest ih => simp [ih]

open Segment.Writes in
theorem Func.Loose.writes {func : Func} {kinds : List Kind} (loose : func.Loose kinds) :
    Segment.Writes func.segments kinds := by
  obtain ⟨params, decls, body, result⟩ := loose
  rw [params.kinds_eq, decls.kinds_eq Spelling.decl_eq]
  have inner := Stmt.writes_of_sequence body
  exact ((marks inner).append (marks (expr result (marks nil)))).of_eq (by simp [Spelling.head])

theorem Program.Loose.exists_stands {program : Program} {kinds : List Kind}
    (loose : program.Loose kinds) : ∃ stands, program.Stands kinds stands := by
  have writes : Segment.Writes (List.flatMap Func.segments program) kinds := by
    induction loose with
    | nil => exact .nil
    | cons first _ ih => exact first.writes.append ih
  exact writes 0

namespace Program.Stands

variable {program : Program} {kinds : List Kind} {stands : List Stand}

theorem exprs (stands_ : program.Stands kinds stands) : stands.map Stand.expr = program.parts := by
  rw [Segment.Stands.exprs stands_, wholes_segments, parts]

theorem covers (stands_ : program.Stands kinds stands) : ∀ stand ∈ stands, stand.Covers 0 kinds :=
  Segment.Stands.covers stands_

/-- Of two expressions, the first one is a part of the second one or stands in front of it. -/
theorem ordered (stands_ : program.Stands kinds stands) : stands.Pairwise Ordered :=
  Segment.Stands.ordered stands_

end Program.Stands

end Wordlang
