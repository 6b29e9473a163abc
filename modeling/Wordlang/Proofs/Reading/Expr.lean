import Wordlang.Proofs.Reading
import Wordlang.Proofs.Spelling
import Mathlib.Data.List.Nodup

/-! # Reading expressions

An expression is read to its end when nothing follows that it could go on with. At the
level of its rank a chain of operators is read from the left: behind each operator the
parser is where it would be behind the tree read so far.
-/

namespace Wordlang

open Token (Kind)
open Parse

namespace BinOp

theorem mark_injective {op other : BinOp} (same : op.mark = other.mark) : op = other := by
  cases op <;> cases other <;> first | rfl | exact absurd same nofun

theorem mark_ne_openBracket (op : BinOp) : op.mark ≠ .openBracket := by
  cases op <;> exact nofun

theorem ofKind?_mark {op : BinOp} {level : Level} (isLevel : levels[op.rank]? = some level) :
    ofKind? level (.punct op.mark) = some op := by
  cases op <;> cases isLevel <;> rfl

theorem ofKind?_eq_some {level : Level} {kind : Kind} {op : BinOp}
    (h : ofKind? level kind = some op) :
    kind = .punct op.mark ∧ levels[op.rank]? = some level := by
  unfold ofKind? at h
  split at h <;> cases h <;> exact ⟨rfl, rfl⟩

theorem ofKind?_eq_none {rank : Nat} {level : Level} (isLevel : levels[rank]? = some level)
    {kind : Kind} (others : ∀ op : BinOp, op.rank = rank → kind ≠ .punct op.mark) :
    ofKind? level kind = none := by
  cases found : ofKind? level kind with
  | none => rfl
  | some op =>
      obtain ⟨isMark, sameLevel⟩ := ofKind?_eq_some found
      have inside : op.rank < levels.length := (List.getElem?_eq_some_iff.mp sameLevel).1
      have same : op.rank = rank :=
        (List.getElem?_inj inside (by decide)).mp (sameLevel.trans isLevel.symm)
      exact absurd isMark (others op same)

end BinOp

namespace Parser

/-- Nothing follows with which an expression of some rank or a higher one goes on. -/
def Stops (rank : Nat) (rest : List Kind) : Prop :=
  front rest ≠ .punct .openBracket ∧ ∀ op : BinOp, rank ≤ op.rank → front rest ≠ .punct op.mark

theorem Stops.mono {rank rank' : Nat} {rest : List Kind} (stops : Stops rank rest)
    (le : rank ≤ rank') : Stops rank' rest :=
  ⟨stops.1, fun op tighter => stops.2 op (Nat.le_trans le tighter)⟩

private theorem stops_of_mark {op : BinOp} (rest : List Kind) :
    Stops (op.rank + 1) (.punct op.mark :: rest) := by
  constructor
  · intro same
    exact op.mark_ne_openBracket (Kind.punct.inj same)
  · intro other tighter same
    obtain rfl := BinOp.mark_injective (Kind.punct.inj same)
    exact absurd tighter (Nat.not_succ_le_self _)

/-- What is neither an operator of some level nor an opening bracket stops expressions. -/
theorem stops_of_other {rank : Nat} {kind : Kind} {rest : List Kind}
    (other : kind ≠ .punct .openBracket ∧
      BinOp.levels.all (fun level => (BinOp.ofKind? level kind).isNone) = true) :
    Stops rank (kind :: rest) := by
  apply And.intro other.1
  rintro op _ rfl
  obtain ⟨level, isLevel⟩ : ∃ level, BinOp.levels[op.rank]? = some level :=
    ⟨_, List.getElem?_eq_getElem op.rank_lt⟩
  have none := List.all_eq_true.mp other.2 level (List.mem_of_getElem? isLevel)
  rw [BinOp.ofKind?_mark isLevel] at none
  exact absurd none nofun

/-- The operands of an expression in which parentheses nest to some depth. -/
def operandOf (depth : Nat) : Parse Expr := unary (primary (expr depth)) (depth + 1)

/-- The parser of expressions of a rank and higher ones. -/
def ranked (depth rank : Nat) : Parse Expr :=
  binary (operandOf depth) (depth + 1) (BinOp.levels.drop rank)

theorem ranked_level {rank : Nat} {level : BinOp.Level}
    (isLevel : BinOp.levels[rank]? = some level) (depth : Nat) :
    ranked depth rank = (ranked depth (rank + 1) >>= fun left =>
      chain (ranked depth (rank + 1)) level (depth + 1) left) := by
  obtain ⟨inside, rfl⟩ := List.getElem?_eq_some_iff.mp isLevel
  rw [ranked, List.drop_eq_getElem_cons inside]
  rfl

private theorem takes_chain_stop {operand : Parse Expr} {level : BinOp.Level} {rest : List Kind}
    (noOperator : BinOp.ofKind? level (front rest) = none) (fuel : Nat) (left : Expr) :
    (chain operand level fuel left).Takes rest rest (· = left) := by
  cases fuel with
  | zero => exact takes_pure rfl
  | succ fuel =>
      apply takes_peek.bind
      intro token isFront
      rw [isFront, noOperator]
      exact takes_pure rfl

private theorem chain_step {operand : Parse Expr} {level : BinOp.Level} {op : BinOp}
    (isLevel : BinOp.levels[op.rank]? = some level) {kinds rest : List Kind} {right : Expr}
    (reads : operand.Takes (kinds ++ rest) rest fun e => e.bare = right.bare) {fuel : Nat}
    {left : Expr} {s : Parser} (ahead : s.Ahead (.punct op.mark :: (kinds ++ rest))) :
    ∃ node right' s', chain operand level (fuel + 1) left s =
        chain operand level fuel (.binary node op left right') s' ∧
      right'.bare = right.bare ∧ s'.Ahead rest := by
  obtain ⟨token, s₁, peeked, isFront, ahead₁⟩ := takes_peek s ahead
  obtain ⟨_, s₂, taken, _, ahead₂⟩ := takes_next s₁ ahead₁
  obtain ⟨right', s₃, ran, same, ahead₃⟩ := reads s₂ ahead₂
  obtain ⟨node, s₄, made, _, ahead₄⟩ := takes_node token.line s₃ ahead₃
  refine ⟨node, right', s₄, ?_, same, ahead₄⟩
  rw [chain, run_bind_of_ok peeked, isFront]
  simp only [front, List.headD_cons, BinOp.ofKind?_mark isLevel]
  rw [run_bind_of_ok taken, run_bind_of_ok ran, run_bind_of_ok made]

/-- How an expression that was written at a place for some rank is read. -/
structure ReadAt (rank : Nat) (e : Expr) (kinds : List Kind) : Prop where
  /-- At the highest rank it is read as an operand, behind any number of prefix operators. -/
  operand : rank = operandRank → ∀ {depth fuel rest}, kinds.length ≤ depth + 1 →
    kinds.length ≤ fuel → Stops operandRank rest →
      (unary (primary (expr depth)) fuel).Takes (kinds ++ rest) rest
        fun found => found.bare = e.bare
  /-- At another rank its reading goes on with the chain behind it. -/
  level : ∀ {level}, BinOp.levels[rank]? = some level → ∀ {depth rest s},
    kinds.length ≤ depth + 1 → Stops (rank + 1) rest → s.Ahead (kinds ++ rest) →
      ∃ found s' used, ranked depth rank s =
          chain (ranked depth (rank + 1)) level (depth + 1 - used) found s' ∧
        used < kinds.length ∧ found.bare = e.bare ∧ s'.Ahead rest

theorem ReadAt.takes {rank : Nat} {e : Expr} {kinds rest : List Kind} (read : ReadAt rank e kinds)
    (le : rank ≤ operandRank) {depth : Nat} (small : kinds.length ≤ depth + 1)
    (stops : Stops rank rest) :
    (ranked depth rank).Takes (kinds ++ rest) rest fun found => found.bare = e.bare := by
  rcases Nat.lt_or_eq_of_le le with lt | rfl
  · intro s ahead
    obtain ⟨level, isLevel⟩ : ∃ level, BinOp.levels[rank]? = some level :=
      ⟨_, List.getElem?_eq_getElem lt⟩
    obtain ⟨found, s₁, used, ran, _, same, ahead₁⟩ :=
      read.level isLevel small (stops.mono (Nat.le_succ rank)) ahead
    have noOperator : BinOp.ofKind? level (front rest) = none :=
      BinOp.ofKind?_eq_none isLevel fun op isRank => stops.2 op (Nat.le_of_eq isRank.symm)
    obtain ⟨_, s₂, ended, rfl, ahead₂⟩ := takes_chain_stop noOperator _ found s₁ ahead₁
    exact ⟨_, s₂, ran.trans ended, same, ahead₂⟩
  · exact read.operand rfl small small stops

theorem ReadAt.takes_expr {e : Expr} {kinds rest : List Kind} (read : ReadAt 0 e kinds)
    (pos : 0 < kinds.length) {depth : Nat} (small : kinds.length ≤ depth) (stops : Stops 0 rest) :
    (expr depth).Takes (kinds ++ rest) rest fun found => found.bare = e.bare := by
  obtain ⟨depth, rfl⟩ : ∃ n, depth = n + 1 := ⟨depth - 1, by omega⟩
  exact read.takes (Nat.zero_le _) small stops

/-- Up to a closing mark an expression is read, whatever comes behind the mark. -/
theorem ReadAt.takes_closed {α : Type} {e : Expr} {kinds rest after : List Kind} {close : Punct}
    (read : ReadAt 0 e kinds) (pos : 0 < kinds.length) {depth : Nat}
    (small : kinds.length ≤ depth) (stops : ∀ rest, Stops 0 (.punct close :: rest))
    {next : Expr → Parse α} {wanted : α → Prop}
    (goesOn : ∀ found, found.bare = e.bare → (next found).Takes rest after wanted) :
    Takes (do
      let found ← expr depth
      mark close
      next found) (kinds ++ .punct close :: rest) after wanted := by
  apply (read.takes_expr pos small (stops rest)).bind
  intro found same
  exact (takes_mark close).bind fun _ _ => goesOn found same

theorem ReadAt.takes_between {α : Type} {e : Expr} {kind : Kind} {kinds rest after : List Kind}
    {close : Punct} (read : ReadAt 0 e kinds) (pos : 0 < kinds.length) {depth : Nat}
    (small : (kinds ++ [Kind.punct close]).length ≤ depth)
    (stops : ∀ rest, Stops 0 (.punct close :: rest)) {goOn : Expr → Parse α} {wanted : α → Prop}
    (goesOn : ∀ found, found.bare = e.bare → (goOn found).Takes rest after wanted) :
    Takes (do
      let _ ← next
      let found ← expr depth
      mark close
      goOn found) (kind :: (kinds ++ [.punct close] ++ rest)) after wanted := by
  rw [List.length_append] at small
  rw [List.append_assoc]
  apply takes_next.bind
  intro _ _
  exact read.takes_closed pos (Nat.le_of_add_right_le small) stops goesOn

private theorem takes_unary {operand : Parse Expr} {before after : List Kind} {wanted : Expr → Prop}
    (noOperator : UnOp.ofKind? (front before) = none) (reads : operand.Takes before after wanted)
    (fuel : Nat) : (unary operand fuel).Takes before after wanted := by
  cases fuel with
  | zero => exact reads
  | succ fuel =>
      apply takes_peek.bind
      intro token isFront
      rw [isFront, noOperator]
      exact reads

private theorem takes_prefix {operand : Parse Expr} {op : UnOp} {mark : Punct}
    {before after : List Kind}
    {e : Expr} (isOp : UnOp.ofKind? (.punct mark) = some op) {fuel : Nat}
    (reads : (unary operand fuel).Takes before after fun found => found.bare = e.bare)
    (node : Node) :
    (unary operand (fuel + 1)).Takes (.punct mark :: before) after
      fun found => found.bare = (Expr.unary node op e).bare := by
  apply Takes.seen
  intro line
  rw [isOp]
  apply takes_next.bind
  intro _ _
  apply reads.bind
  intro inner same
  apply (takes_node line).bind
  intro node _
  exact takes_pure (by rw [Expr.bare, Expr.bare, same])

theorem takes_leaf {make : Node → Expr} {e : Expr} {kind : Kind} {rest : List Kind} {line : Nat}
    (same : ∀ node, (make node).bare = e.bare) :
    Takes (do
      let _ ← next
      return make (← Parser.node line)) (kind :: rest) rest fun found => found.bare = e.bare := by
  apply takes_next.bind
  intro _ _
  exact (takes_node line).bind fun node _ => takes_pure (same node)

theorem ReadAt.of_primary {e : Expr} {kind : Kind} {kinds : List Kind}
    (noOperator : UnOp.ofKind? kind = none)
    (reads : ∀ {depth rest}, kinds.length ≤ depth → Stops operandRank rest →
      (primary (expr depth)).Takes (kind :: (kinds ++ rest)) rest
        fun found => found.bare = e.bare) :
    ReadAt operandRank e (kind :: kinds) := by
  refine ⟨fun _ {depth fuel rest} small _ stops => ?_, fun isLevel => absurd isLevel nofun⟩
  refine takes_unary ?_ (reads (Nat.le_of_succ_le_succ small) stops) fuel
  exact noOperator

theorem ReadAt.unary {op : UnOp} {mark : Punct} {e : Expr} {kinds : List Kind}
    (isOp : UnOp.ofKind? (.punct mark) = some op) (read : ReadAt operandRank e kinds)
    (node : Node) : ReadAt operandRank (.unary node op e) (.punct mark :: kinds) := by
  refine ⟨fun _ {depth fuel rest} small enough stops => ?_, fun isLevel => absurd isLevel nofun⟩
  rw [List.length_cons] at small enough
  obtain ⟨fuel, rfl⟩ : ∃ n, fuel = n + 1 := ⟨fuel - 1, by omega⟩
  exact takes_prefix isOp (read.operand rfl (by omega) (by omega) stops) node

end Parser

namespace Expr.Spelled

open Wordlang.Parser

theorem rank_le {rank : Nat} {e : Expr} {kinds : List Kind} (spelled : e.Spelled rank kinds) :
    rank ≤ operandRank := by
  induction spelled with
  | looser _ ih => exact Nat.le_of_succ_le ih
  | binary => exact Nat.le_of_lt (BinOp.rank_lt _)
  | _ => exact Nat.le_refl _

theorem length_pos {rank : Nat} {e : Expr} {kinds : List Kind} (spelled : e.Spelled rank kinds) :
    0 < kinds.length := by
  induction spelled with
  | looser _ ih => exact ih
  | binary _ _ ih _ => exact Nat.lt_of_lt_of_le ih (List.sublist_append_left _ _).length_le
  | _ => exact Nat.succ_pos _

theorem readAt {rank : Nat} {e : Expr} {kinds : List Kind} (spelled : e.Spelled rank kinds) :
    ReadAt rank e kinds := by
  induction spelled with
  | @looser rank e kinds spelled ih =>
      have le := spelled.rank_le
      constructor
      · rintro rfl
        exact absurd le (Nat.not_succ_le_self _)
      · intro level isLevel depth rest s small stops ahead
        obtain ⟨found, s', ran, same, ahead'⟩ := ih.takes le small stops s ahead
        refine ⟨found, s', 0, ?_, spelled.length_pos, same, ahead'⟩
        rw [ranked_level isLevel, run_bind_of_ok ran]
        rfl
  | @binary node op left right first second spelledLeft spelledRight ihLeft ihRight =>
      constructor
      · intro isOperand
        exact absurd isOperand (Nat.ne_of_lt op.rank_lt)
      · intro level isLevel depth rest s small stops ahead
        rw [List.length_append, List.length_cons] at small
        rw [List.append_assoc, List.cons_append] at ahead
        -- the left operand uses up less fuel than it has tokens: some is left for the operator
        have smallFirst : first.length ≤ depth + 1 := by omega
        have smallSecond : second.length ≤ depth + 1 := by omega
        obtain ⟨left', s₁, used, ran, few, sameLeft, ahead₁⟩ :=
          ihLeft.level isLevel smallFirst (stops_of_mark _) ahead
        obtain ⟨more, fuel⟩ : ∃ n, depth + 1 - used = n + 1 := ⟨depth - used, by omega⟩
        have right := ihRight.takes op.rank_lt smallSecond stops
        obtain ⟨node', right', s₂, ran', sameRight, ahead₂⟩ := chain_step isLevel right ahead₁
        refine ⟨.binary node' op left' right', s₂, used + 1, ?_, ?_, ?_, ahead₂⟩
        · rw [ran, fuel, ran']
          congr 1
          omega
        · rw [List.length_append, List.length_cons]
          omega
        · rw [Expr.bare, Expr.bare, sameLeft, sameRight]
  | int => exact .of_primary rfl fun _ _ => .seen fun line => takes_leaf fun _ => rfl
  | @bool node value =>
      cases value
      all_goals exact .of_primary rfl fun _ _ => .seen fun line => takes_leaf fun _ => rfl
  | var =>
      apply ReadAt.of_primary rfl
      intro depth rest _ stops
      apply Takes.seen
      intro line
      apply takes_next.bind
      intro _ _
      apply (takes_accept_not stops.1).bind
      rintro _ rfl
      exact (takes_node line).bind fun node _ => takes_pure rfl
  | @index node name element kinds spelled ih =>
      rw [List.cons_append, List.cons_append]
      apply ReadAt.of_primary rfl
      intro depth rest small stops
      rw [List.length_cons, List.length_append] at small
      have smallElement : kinds.length ≤ depth := by omega
      simp only [List.cons_append, List.append_assoc, List.nil_append]
      apply Takes.seen
      intro line
      apply takes_next.bind
      intro _ _
      apply takes_accept.bind
      rintro _ rfl
      apply ih.takes_closed spelled.length_pos smallElement fun _ => stops_of_other (by decide)
      intro found same
      apply (takes_node line).bind
      intro node _
      exact takes_pure (by rw [Expr.bare, Expr.bare, same])
  | @parens e kinds spelled ih =>
      rw [List.cons_append]
      apply ReadAt.of_primary rfl
      intro depth rest small stops
      apply Takes.seen
      intro line
      apply ih.takes_between spelled.length_pos small fun _ => stops_of_other (by decide)
      exact fun found same => takes_pure same
  | @magnitude node e kinds spelled ih =>
      rw [List.cons_append]
      apply ReadAt.of_primary rfl
      intro depth rest small stops
      apply Takes.seen
      intro line
      apply ih.takes_between spelled.length_pos small fun _ => stops_of_other (by decide)
      intro found same
      apply (takes_node line).bind
      intro node _
      exact takes_pure (by rw [Expr.bare, Expr.bare, same])
  | @neg node e kinds spelled ih => exact ih.unary rfl node
  | @not node e kinds spelled ih => exact ih.unary rfl node

theorem takes {e : Expr} {kinds rest : List Kind} (spelled : e.Spelled 0 kinds) {depth : Nat}
    (small : kinds.length ≤ depth) (stops : Stops 0 rest) :
    (expr depth).Takes (kinds ++ rest) rest fun found => found.bare = e.bare :=
  spelled.readAt.takes_expr spelled.length_pos small stops

theorem takes_closed {α : Type} {e : Expr} {kinds rest after : List Kind} {close : Punct}
    (spelled : e.Spelled 0 kinds) {depth : Nat} (small : kinds.length ≤ depth)
    (stops : ∀ rest, Stops 0 (.punct close :: rest)) {next : Expr → Parse α} {wanted : α → Prop}
    (goesOn : ∀ found, found.bare = e.bare → (next found).Takes rest after wanted) :
    Parse.Takes (do
      let found ← expr depth
      mark close
      next found) (kinds ++ .punct close :: rest) after wanted :=
  spelled.readAt.takes_closed spelled.length_pos small stops goesOn

theorem front_ne_closeParen {rank : Nat} {e : Expr} {kinds : List Kind}
    (spelled : e.Spelled rank kinds) (rest : List Kind) :
    front (kinds ++ rest) ≠ .punct .closeParen := by
  induction spelled generalizing rest with
  | looser _ ih => exact ih rest
  | binary _ _ ih _ =>
      rw [List.append_assoc]
      exact ih _
  | _ => exact nofun

end Expr.Spelled

namespace Parser

private theorem reads_expr (fuel : Nat) : Reads (expr fuel) (Expr.Spelled 0)
    (Stops 0) fuel Expr.bare :=
  ⟨fun spelled small stops => spelled.takes small stops, fun spelled => spelled.length_pos⟩

theorem takes_args {args : List Expr} {kinds : List Kind}
    (spelled : Spelling.Parens (Expr.Spelled 0) args kinds) {fuel : Nat}
    (small : kinds.length ≤ fuel) : ∃ inner, kinds = .punct .openParen :: inner ∧
      ∀ rest, (parenList (expr fuel) fuel).Takes (inner ++ rest) rest
        fun found => found.map Expr.bare = args.map Expr.bare :=
  (reads_expr fuel).parenList (fun _ => stops_of_other (by decide))
    (fun _ => stops_of_other (by decide)) (fun spelled => spelled.front_ne_closeParen _)
    spelled small small

end Parser

end Wordlang
