import Wordlang.Proofs.Consistency
import Wordlang.Proofs.Spans

/-! # Tokens of expressions and statements

An expression or a statement is read from some tokens, and wherever it may be blamed, these tokens
say what the line is: that of the name itself, that of the target of the same assignment, or that
of the token in which a right side or an index is rooted. Where an assignment begins only the
token in front of it tells.
-/

namespace Wordlang

open Token (Kind kinds)

theorem Token.Reaches.mono {own tokens start : List Token} {last : Token}
    (reaches : Token.Reaches own start last) (inside : own <:+: tokens) :
    Token.Reaches tokens start last := by
  obtain ⟨between, part, inner⟩ := reaches
  exact ⟨between, part.trans inside, inner⟩

/-- Among tokens that go on, every token can be reached. -/
theorem Token.reaches_of_mem {start own rest : List Token} {last : Token} (mem : last ∈ own)
    (inner : ∀ token ∈ own, token.Inner) : Token.Reaches (start ++ own ++ rest) start last := by
  obtain ⟨between, later, rfl⟩ := List.append_of_mem mem
  refine ⟨between, ⟨[], later ++ rest, by simp⟩, fun token isBetween => ?_⟩
  exact inner token (List.mem_append_left _ isBetween)

theorem Misuse.Points.mono {own tokens : List Token} {line : Nat} {cause : Misuse}
    (points : Misuse.Points own line cause) (inside : own <:+: tokens) :
    Misuse.Points tokens line cause := by
  cases points with
  | name misused mem => exact .name misused (inside.subset mem)
  | function part => exact .function (part.trans inside)
  | declaration misused reaches => exact .declaration misused (reaches.mono inside)
  | callee misused targets called part => exact .callee misused targets called (part.trans inside)
  | value misused ends rooted part => exact .value misused ends rooted (part.trans inside)
  | index misused ends rooted spelled part =>
      exact .index misused ends rooted spelled (part.trans inside)

/-- Wherever an expression is blamed for one of its names, some tokens say what the line is. -/
def Expr.Named (e : Expr) (own : List Token) : Prop :=
  ∀ part ∈ e.parts, ∀ cause line, part.Blames cause line → Misuse.Points own line cause

theorem Expr.persists_named : Parse.Persists Expr.Named :=
  fun _ _ _ inside named part isPart cause line blamed =>
    (named part isPart cause line blamed).mono inside

/-- An expression is read from some tokens at a place for expressions of at least some rank: it is
    written with them, they have to do with its names, and one of them gives its line. -/
structure Expr.Written (rank : Nat) (e : Expr) (own : List Token) : Prop where
  names : e.Named own
  spelled : e.Spelled rank (kinds own)
  rooted : e.Rooted e.line own

namespace Expr.Written

variable {e left right : Expr} {own first second : List Token} {node : Node} {name : String}
  {token : Token} {rank : Nat}

theorem looser (written : e.Written (rank + 1) own) : e.Written rank own :=
  ⟨written.names, written.spelled.looser, written.rooted⟩

theorem of_first {after : List Token} (names : e.Named (token :: after))
    (spelled : e.Spelled operandRank (token.kind :: kinds after))
    (begins : token.kind ≠ .punct .openParen) (isLine : e.line = token.line) :
    e.Written operandRank (token :: after) where
  names := names
  spelled := spelled
  rooted := isLine ▸ .first begins spelled

/-- A literal has no names. -/
theorem literal (parts : e.parts = [e]) (unnamed : ∀ cause line, ¬ e.Blames cause line)
    (spelled : e.Spelled operandRank [token.kind]) (begins : token.kind ≠ .punct .openParen)
    (isLine : e.line = token.line) : e.Written operandRank [token] := by
  refine of_first ?_ spelled begins isLine
  rw [Expr.Named, parts]
  exact List.forall_mem_singleton.mpr fun cause at_ blamed => absurd blamed (unnamed cause at_)

theorem var {line : Nat} (isLine : node.line = line) :
    (Expr.var node name).Written operandRank [⟨.ident name, line⟩] := by
  refine of_first (List.forall_mem_singleton.mpr fun cause at_ blamed => ?_) .var (by nofun) isLine
  cases blamed with
  | var misused => exact .name (.inl misused) (by simp [isLine])

theorem index {element : Expr} {line at_ at₁ : Nat} (written : element.Written 0 own)
    (isLine : node.line = line) :
    (Expr.index node name element).Written operandRank
      (⟨.ident name, line⟩ :: ⟨.punct .openBracket, at_⟩ :: own ++
        [⟨.punct .closeBracket, at₁⟩]) := by
  refine of_first (List.forall_mem_append.mpr ⟨?_, List.forall_mem_singleton.mpr ?_⟩)
    (by simpa using Spelled.index written.spelled) (by nofun) isLine
  · exact persists_named _ _ _ ⟨[_, _], [_], rfl⟩ written.names
  · intro cause at' blamed
    cases blamed with
    | index misused => exact .name (.inr (.inl misused)) (by simp [isLine])

theorem parens {at_ at₁ : Nat} (written : e.Written 0 own) :
    e.Written operandRank
      (⟨.punct .openParen, at_⟩ :: own ++ [⟨.punct .closeParen, at₁⟩]) where
  names := persists_named _ _ _ ⟨[_], [_], rfl⟩ written.names
  spelled := by simpa using written.spelled.parens
  rooted := written.rooted.parens

theorem unary {op : UnOp} (after : List Token) (written : e.Written rank own)
    (spelled : (Expr.unary node op e).Spelled operandRank
      (token.kind :: kinds own ++ kinds after))
    (begins : token.kind ≠ .punct .openParen) (isLine : node.line = token.line) :
    (Expr.unary node op e).Written operandRank (token :: own ++ after) := by
  refine of_first (List.forall_mem_append.mpr ⟨?_, List.forall_mem_singleton.mpr nofun⟩)
    (by simpa using spelled) begins isLine
  exact persists_named _ _ _ ⟨[token], after, rfl⟩ written.names

theorem binary {op : BinOp} {line : Nat} (one : left.Written op.rank first)
    (two : right.Written (op.rank + 1) second) (isLine : node.line = line) :
    (Expr.binary node op left right).Written op.rank
      (first ++ ⟨.punct op.mark, line⟩ :: second) where
  names := by
    refine List.forall_mem_append.mpr ⟨List.forall_mem_append.mpr ⟨?_, ?_⟩,
      List.forall_mem_singleton.mpr nofun⟩
    · exact persists_named _ _ _ ⟨[], _, rfl⟩ one.names
    · exact persists_named _ _ _ ⟨first ++ [⟨.punct op.mark, line⟩], [], by simp⟩ two.names
  spelled := by simpa using one.spelled.binary two.spelled
  rooted := isLine ▸ .operator one.spelled two.spelled

end Expr.Written

namespace Parse

open Wordlang.Parser (chain unary primary expr operandOf ranked ranked_level)

variable {operand inner : Parse Expr}

private theorem spans_chain {rank : Nat} {level : BinOp.Level}
    (isLevel : BinOp.levels[rank]? = some level)
    (operands : operand.Spans (Expr.Written (rank + 1))) (fuel : Nat) (left : Expr) :
    (chain operand level fuel left).Spans fun e later =>
      ∀ own, left.Written rank own → e.Written rank (own ++ later) := by
  induction fuel generalizing left with
  | zero => exact spans_pure fun own written => by rwa [List.append_nil]
  | succ fuel ih =>
      apply spans_peek
      rintro ⟨kind, line⟩
      dsimp only
      cases found : BinOp.ofKind? level kind with
      | none =>
          apply Spans.at
          exact spans_pure fun own written => by rwa [List.append_nil]
      | some op =>
          obtain ⟨rfl, rfl⟩ := BinOp.rank_of_ofKind? isLevel found
          apply (spansAt_next (by nofun)).bind
          rintro _ _ ⟨rfl, rfl⟩
          apply operands.bind
          intro right second two
          apply (spans_node _).bind
          rintro node _ ⟨rfl, isLine⟩
          -- the chain goes on with a left operand that is larger
          refine (ih (.binary node op left right)).imp fun later own one => ?_
          simpa using later _ (one.binary two isLine)

private theorem spans_ranked {depth rank : Nat}
    (operands : (operandOf depth).Spans (Expr.Written operandRank)) (le : rank ≤ operandRank) :
    (ranked depth rank).Spans (Expr.Written rank) := by
  induction le using Nat.decreasingInduction with
  | self => exact operands
  | of_succ rank lt ih =>
      obtain ⟨level, isLevel⟩ : ∃ level, BinOp.levels[rank]? = some level :=
        ⟨_, List.getElem?_eq_getElem lt⟩
      rw [ranked_level isLevel]
      apply ih.bind
      intro left own written
      exact (spans_chain isLevel ih _ left).imp fun later => later own written.looser

private theorem spans_unary (operands : operand.Spans (Expr.Written operandRank)) (fuel : Nat) :
    (unary operand fuel).Spans (Expr.Written operandRank) := by
  induction fuel with
  | zero => exact operands
  | succ fuel ih =>
      apply spans_peek
      rintro ⟨kind, line⟩
      dsimp only
      cases found : UnOp.ofKind? kind with
      | none => exact operands.at _
      | some op =>
          unfold UnOp.ofKind? at found
          split at found <;> cases found
          all_goals
            apply (spansAt_next (by nofun)).bind
            rintro _ _ ⟨rfl, rfl⟩
            apply ih.bind
            intro e own written
            apply (spans_node _).bind
            rintro node _ ⟨rfl, isLine⟩
            apply spans_pure
          · simpa using written.unary [] (by simpa using written.spelled.neg) (by nofun) isLine
          · simpa using written.unary [] (by simpa using written.spelled.not) (by nofun) isLine

private theorem spans_primary (inners : inner.Spans (Expr.Written 0)) :
    (primary inner).Spans (Expr.Written operandRank) := by
  apply spans_peek
  rintro ⟨kind, line⟩
  cases kind with
  | num value =>
      apply (spansAt_next (by nofun)).bind
      rintro _ _ ⟨rfl, rfl⟩
      apply (spans_node line).bind
      rintro node _ ⟨rfl, isLine⟩
      exact spans_pure (.literal rfl nofun .int (by nofun) isLine)
  | ident name =>
      apply (spansAt_next (by nofun)).bind
      rintro _ _ ⟨rfl, rfl⟩
      apply (spans_accept .openBracket).bind
      intro isElement opening taken
      cases isElement with
      | false =>
          obtain rfl : opening = [] := by simpa using taken
          apply (spans_node line).bind
          rintro node _ ⟨rfl, isLine⟩
          exact spans_pure (.var isLine)
      | true =>
          obtain ⟨⟨_, at_⟩, rfl, rfl⟩ := by simpa using taken
          apply inners.bind
          intro index own written
          apply (spans_mark .closeBracket).bind
          rintro _ _ ⟨⟨_, at₁⟩, rfl, rfl⟩
          apply (spans_node line).bind
          rintro node _ ⟨rfl, isLine⟩
          apply spans_pure
          simpa using Expr.Written.index written isLine
  | punct mark =>
      cases mark with
      | openParen =>
          apply (spansAt_next (by nofun)).bind
          rintro _ _ ⟨rfl, rfl⟩
          apply inners.bind
          intro e own written
          apply (spans_mark .closeParen).bind
          rintro _ _ ⟨⟨_, at_⟩, rfl, rfl⟩
          apply spans_pure
          simpa using written.parens
      | bar =>
          apply (spansAt_next (by nofun)).bind
          rintro _ _ ⟨rfl, rfl⟩
          apply inners.bind
          intro e own written
          apply (spans_mark .bar).bind
          rintro _ _ ⟨⟨_, at_⟩, rfl, rfl⟩
          apply (spans_node line).bind
          rintro node _ ⟨rfl, isLine⟩
          apply spans_pure
          have whole : (Expr.unary node .magnitude e).Written operandRank
              (⟨.punct .bar, line⟩ :: own ++ [⟨.punct .bar, at_⟩]) :=
            written.unary [_] written.spelled.magnitude (by nofun) isLine
          simpa using whole
      | _ => exact Spans.at spans_unexpected _
  | keyword word =>
      cases word with
      | true_ | false_ =>
          apply (spansAt_next (by nofun)).bind
          rintro _ _ ⟨rfl, rfl⟩
          apply (spans_node line).bind
          rintro node _ ⟨rfl, isLine⟩
          exact spans_pure (.literal rfl nofun .bool (by nofun) isLine)
      | _ => exact Spans.at spans_unexpected _
  | eof => exact Spans.at spans_unexpected _

theorem spans_expr (fuel : Nat) : (expr fuel).Spans (Expr.Written 0) := by
  induction fuel with
  | zero => exact spans_unexpected
  | succ fuel ih =>
      have operands : (operandOf fuel).Spans (Expr.Written operandRank) :=
        spans_unary (spans_primary ih) _
      exact spans_ranked operands (Nat.zero_le _)

end Parse

theorem Stmt.exprsAll_eq_flatMap (stmts : List Stmt) : exprsAll stmts = stmts.flatMap exprs := by
  induction stmts with
  | nil => rfl
  | cons stmt rest ih => rw [exprsAll, List.flatMap_cons, ih]

/-- Wherever a statement may be blamed, some tokens say what the line is. -/
def Stmt.Written (stmt : Stmt) (own : List Token) : Prop :=
  ∀ cause line, stmt.Blames cause line → Misuse.Points own line cause

theorem Stmt.persists_written : Parse.Persists Stmt.Written :=
  fun _ _ _ inside written cause line blamed => (written cause line blamed).mono inside

/-- What may stand behind the right side of an assignment: nothing, or the arguments of a call
    if the right side is a name. -/
inductive Expr.Calling (value : Expr) : Option (String × List Expr) → List Token → Prop where
  | none : Calling value none []
  | some {node : Node} {callee : String} {args : List Expr} {own : List Token} {at_ : Nat} :
      value = .var node callee → (∀ arg ∈ args, arg.Named own) →
      Calling value (some (callee, args)) (⟨.punct .openParen, at_⟩ :: own)

namespace Stmt.Written

variable {target callee : String} {value index : Expr} {args : List Expr} {line at_ at₁ at₂ : Nat}
  {own place rest later : List Token} {front : Token} {node : Node}

theorem assign (ends : ¬ front.Inner) (written : value.Written 0 own) :
    (Stmt.assign target value).Written
      ([front, ⟨.ident target, line⟩, ⟨.punct .equal, at_⟩] ++ own ++
        [⟨.punct .semicolon, at₁⟩]) := by
  intro cause at' blamed
  cases blamed with
  | expr mem isPart blamed =>
      obtain rfl := List.mem_singleton.mp mem
      exact (written.names _ isPart cause at' blamed).mono (List.infix_append _ _ _)
  | assign misused => exact .value misused ends written.rooted (List.infix_refl _)

theorem assignIndex (ends : ¬ front.Inner) (ofIndex : index.Written 0 place)
    (ofValue : value.Written 0 own) {at₃ : Nat} :
    (Stmt.assignIndex target index value).Written
      ([front, ⟨.ident target, line⟩, ⟨.punct .openBracket, at_⟩] ++ place ++
        [⟨.punct .closeBracket, at₁⟩, ⟨.punct .equal, at₂⟩] ++ own ++
        [⟨.punct .semicolon, at₃⟩]) := by
  intro cause at' blamed
  cases blamed with
  | expr mem isPart blamed =>
      simp only [Stmt.exprs, List.mem_cons, List.not_mem_nil, or_false] at mem
      obtain rfl | rfl := mem
      · refine (ofIndex.names _ isPart cause at' blamed).mono ?_
        rw [List.append_assoc, List.append_assoc]
        exact List.infix_append _ _ _
      · exact (ofValue.names _ isPart cause at' blamed).mono (List.infix_append _ _ _)
  | assignIndex misused =>
      exact .index misused ends ofIndex.rooted ofValue.spelled (List.infix_refl _)

theorem infix_tail (start : List Token) (token : Token) : rest <:+: start ++ token :: rest :=
  ⟨start ++ [token], [], by simp⟩

theorem points_of_call {start : List Token} {cause : Misuse} {at' : Nat}
    (targets : Token.Targets target line start) (misused : cause.OfCallee callee)
    (ofCallee : (Expr.var node callee).Written 0 own) :
    Misuse.Points (start ++ own ++ ⟨.punct .openParen, at'⟩ :: rest) line cause :=
  have part : start ++ own ++ [⟨.punct .openParen, at'⟩] <:+:
      start ++ own ++ ⟨.punct .openParen, at'⟩ :: rest := ⟨[], rest, by simp⟩
  .callee misused targets ofCallee.spelled part

theorem call (ends : ¬ front.Inner) (ofCallee : (Expr.var node callee).Written 0 own)
    (ofArgs : ∀ arg ∈ args, arg.Named rest) :
    (Stmt.call line target callee args).Written
      ([front, ⟨.ident target, line⟩, ⟨.punct .equal, at_⟩] ++ own ++
        ⟨.punct .openParen, at₁⟩ :: rest) := by
  intro cause at' blamed
  cases blamed with
  | expr mem isPart blamed => exact (ofArgs _ mem _ isPart cause at' blamed).mono (infix_tail _ _)
  | call misused =>
      obtain ofTarget | misused := misused
      · exact .name (.inl ofTarget) (by simp)
      · exact points_of_call (.variable ends) misused ofCallee

theorem callIndex (ends : ¬ front.Inner) (ofIndex : index.Written 0 place)
    (ofCallee : (Expr.var node callee).Written 0 own) {at₃ : Nat}
    (ofArgs : ∀ arg ∈ args, arg.Named rest) :
    (Stmt.callIndex line target index callee args).Written
      ([front, ⟨.ident target, line⟩, ⟨.punct .openBracket, at_⟩] ++ place ++
        [⟨.punct .closeBracket, at₁⟩, ⟨.punct .equal, at₂⟩] ++ own ++
        ⟨.punct .openParen, at₃⟩ :: rest) := by
  intro cause at' blamed
  cases blamed with
  | expr isExpr isPart blamed =>
      obtain rfl | isArg := List.mem_cons.mp isExpr
      · refine (ofIndex.names _ isPart cause at' blamed).mono ?_
        rw [List.append_assoc, List.append_assoc]
        exact List.infix_append _ _ _
      · exact (ofArgs _ isArg _ isPart cause at' blamed).mono (infix_tail _ _)
  | callIndex misused =>
      obtain ofTarget | misused := misused
      · exact .name (.inr (.inl ofTarget)) (by simp)
      · exact points_of_call (.element ends ofIndex.spelled) misused ofCallee

variable {cond : Expr} {body thens elses : List Stmt}

theorem points_of_body (ofBody : ∀ stmt ∈ body, stmt.Written own) {e part : Expr}
    (mem : e ∈ Stmt.exprsAll body) (isPart : part ∈ e.parts) {cause : Misuse}
    (blamed : part.Blames cause line) : Misuse.Points own line cause := by
  rw [Stmt.exprsAll_eq_flatMap] at mem
  obtain ⟨stmt, inBody, mem⟩ := List.mem_flatMap.mp mem
  exact ofBody stmt inBody cause line (.expr mem isPart blamed)

theorem when (ofCond : cond.Named own) (ofBody : ∀ stmt ∈ body, stmt.Written own) :
    (Stmt.when cond body).Written own := by
  intro cause at_ blamed
  cases blamed with
  | expr mem isPart blamed =>
      obtain rfl | mem := List.mem_cons.mp mem
      · exact ofCond _ isPart cause at_ blamed
      · exact points_of_body ofBody mem isPart blamed
  | when mem blamed => exact ofBody _ mem cause at_ blamed

theorem choose (ofCond : cond.Named own) (ofThens : ∀ stmt ∈ thens, stmt.Written own)
    (ofElses : ∀ stmt ∈ elses, stmt.Written own) : (Stmt.choose cond thens elses).Written own := by
  intro cause at_ blamed
  cases blamed with
  | expr mem isPart blamed =>
      obtain rfl | mem := List.mem_cons.mp mem
      · exact ofCond _ isPart cause at_ blamed
      · obtain mem | mem := List.mem_append.mp mem
        · exact points_of_body ofThens mem isPart blamed
        · exact points_of_body ofElses mem isPart blamed
  | choose mem blamed =>
      obtain mem | mem := List.mem_append.mp mem
      · exact ofThens _ mem cause at_ blamed
      · exact ofElses _ mem cause at_ blamed

theorem loop (ofCond : cond.Named own) (ofBody : ∀ stmt ∈ body, stmt.Written own) :
    (Stmt.loop cond body).Written own := by
  intro cause at_ blamed
  cases blamed with
  | expr mem isPart blamed =>
      obtain rfl | mem := List.mem_cons.mp mem
      · exact ofCond _ isPart cause at_ blamed
      · exact points_of_body ofBody mem isPart blamed
  | loop mem blamed => exact ofBody _ mem cause at_ blamed

theorem block (ofBody : ∀ stmt ∈ body, stmt.Written own) : (Stmt.block body).Written own := by
  intro cause at_ blamed
  cases blamed with
  | expr mem isPart blamed => exact points_of_body ofBody mem isPart blamed
  | block mem blamed => exact ofBody _ mem cause at_ blamed

end Stmt.Written

namespace Parse

open Wordlang.Parser (accept callOf assignment indexAssignment condition block stmt)

variable {stmts : Parse Stmt} {target : String} {line : Nat}

theorem spans_callOf (value : Expr) (fuel : Nat) : (callOf value fuel).Spans value.Calling := by
  cases value with
  | var node callee =>
      apply (spans_accept .openParen).bind
      intro isCall opening taken
      cases isCall with
      | false =>
          obtain rfl : opening = [] := by simpa using taken
          exact spans_pure .none
      | true =>
          obtain ⟨⟨_, at_⟩, rfl, rfl⟩ := by simpa using taken
          have arguments := (spans_expr fuel).imp Expr.Written.names
          apply (spans_parenList Expr.persists_named arguments fuel).bind
          intro args own named
          apply spans_pure
          rw [List.append_nil]
          exact .some rfl named
  | _ => exact spans_pure .none

private theorem spans_assignment (fuel : Nat) : (assignment target line fuel).Spans fun stmt own =>
    ∀ at_, Behind Stmt.Written stmt ([⟨.ident target, line⟩, ⟨.punct .equal, at_⟩] ++ own) := by
  apply (spans_expr fuel).bind
  intro value own written
  apply (spans_callOf value fuel).bind
  intro call later calling
  apply (spans_mark .semicolon).bind
  rintro _ _ ⟨⟨_, at₁⟩, rfl, rfl⟩
  apply spans_pure
  intro at_
  rw [List.append_nil, ← List.append_assoc]
  -- the semicolon ends the statement, so that the next target begins a statement
  have ready : Token.Ready [⟨.punct .semicolon, at₁⟩] :=
    Token.ready_singleton (by simp [Token.Inner])
  refine behind_of_last Stmt.persists_written (fun front ends => ?_) ((ready.behind _).behind _)
  cases calling with
  | none => exact .assign ends written
  | some isVar named =>
      subst isVar
      exact .call ends written (Expr.persists_named.all _ _ _ ⟨[], [_], rfl⟩ named)

private theorem spans_indexAssignment {index : Expr} (fuel : Nat) :
    (indexAssignment target index line fuel).Spans fun stmt own =>
      ∀ at_ at₁ at₂ place, index.Written 0 place → Behind Stmt.Written stmt
        ([⟨.ident target, line⟩, ⟨.punct .openBracket, at_⟩] ++ place ++
          [⟨.punct .closeBracket, at₁⟩, ⟨.punct .equal, at₂⟩] ++ own) := by
  apply (spans_expr fuel).bind
  intro value own written
  apply (spans_callOf value fuel).bind
  intro call later calling
  apply (spans_mark .semicolon).bind
  rintro _ _ ⟨⟨_, at₃⟩, rfl, rfl⟩
  apply spans_pure
  intro at_ at₁ at₂ place ofIndex
  rw [List.append_nil, ← List.append_assoc]
  have ready : Token.Ready [⟨.punct .semicolon, at₃⟩] :=
    Token.ready_singleton (by simp [Token.Inner])
  refine behind_of_last Stmt.persists_written (fun front ends => ?_) ((ready.behind _).behind _)
  cases calling with
  | none => exact .assignIndex ends ofIndex written
  | some isVar named =>
      subst isVar
      exact .callIndex ends ofIndex written (Expr.persists_named.all _ _ _ ⟨[], [_], rfl⟩ named)

theorem spans_condition (fuel : Nat) : (condition fuel).Spans Expr.Named := by
  apply (spans_mark .openParen).bind
  intro _ opening _
  apply (spans_expr fuel).bind
  intro cond own written
  apply (spans_mark .closeParen).bind
  intro _ closing _
  apply spans_pure
  exact Expr.persists_named _ _ _ ⟨opening, closing, by simp⟩ written.names

private theorem spans_block (each : stmts.Spans (Behind Stmt.Written)) (fuel : Nat) :
    (block stmts fuel).Spans fun body own =>
      (∀ stmt ∈ body, stmt.Written own) ∧ Token.Ready own := by
  apply (spans_mark .openBrace).bind
  rintro _ _ ⟨opening, rfl, isOpening⟩
  have tests : Parse.Spans (do return !(← accept .closeBrace)) fun goesOn own =>
      own = [] ∨ goesOn = false ∧ Token.Ready own := by
    apply (spans_accept .closeBrace).bind
    intro isLast own taken
    apply spans_pure
    rw [List.append_nil]
    cases isLast with
    | false => exact .inl (by simpa using taken)
    | true =>
        obtain ⟨last, rfl, isClosing⟩ := by simpa using taken
        exact .inr ⟨rfl, Token.ready_singleton (by simp [Token.Inner, isClosing])⟩
  refine (spans_whileM_behind Stmt.persists_written tests each fuel).imp fun behind => ?_
  exact behind [opening] (Token.ready_singleton (by simp [Token.Inner, isOpening]))

theorem spans_stmt (fuel : Nat) : (stmt fuel).Spans (Behind Stmt.Written) := by
  induction fuel with
  | zero => exact spans_unexpected
  | succ fuel ih =>
      have bodies := spans_block ih fuel.succ
      apply spans_peek
      rintro ⟨kind, line⟩
      cases kind with
      | ident target =>
          apply (spansAt_next (by simp)).bind
          rintro _ _ ⟨rfl, rfl⟩
          apply (spans_accept .openBracket).bind
          intro isElement opening taken
          cases isElement with
          | false =>
              obtain rfl : opening = [] := by simpa using taken
              apply (spans_mark .equal).bind
              rintro _ _ ⟨⟨_, at_⟩, rfl, rfl⟩
              exact (spans_assignment fuel.succ).imp fun behind => behind at_
          | true =>
              obtain ⟨⟨_, at_⟩, rfl, rfl⟩ := by simpa using taken
              apply (spans_expr fuel.succ).bind
              intro index place ofIndex
              apply (spans_mark .closeBracket).bind
              rintro _ _ ⟨⟨_, at₁⟩, rfl, rfl⟩
              apply (spans_mark .equal).bind
              rintro _ _ ⟨⟨_, at₂⟩, rfl, rfl⟩
              refine (spans_indexAssignment fuel.succ).imp fun behind => ?_
              simpa using behind at_ at₁ at₂ place ofIndex
      | keyword word =>
          cases word with
          | if_ =>
              apply (spansAt_next (by simp)).bind
              rintro _ front -
              apply (spans_condition fuel.succ).bind
              intro cond ofCond named
              apply bodies.bind
              rintro thens ofThens ⟨written, ready⟩
              apply (spans_acceptWord .else_).bind
              intro isElse word taken
              cases isElse with
              | false =>
                  obtain rfl : word = [] := by simpa using taken
                  apply spans_pure
                  rw [List.append_nil, List.append_nil]
                  refine behind_of_own Stmt.persists_written (.when ?cond ?body)
                    ((ready.behind _).behind _)
                  case cond => exact Expr.persists_named _ _ _ ⟨front, ofThens, by simp⟩ named
                  case body =>
                    exact Stmt.persists_written.all _ _ _ ⟨front ++ ofCond, [], by simp⟩ written
              | true =>
                  apply bodies.bind
                  rintro elses ofElses ⟨written', ready'⟩
                  apply spans_pure
                  rw [List.append_nil]
                  refine behind_of_own Stmt.persists_written
                    (.choose ?cond ?thens ?elses) ((((ready'.behind _).behind _).behind _).behind _)
                  case cond =>
                    exact Expr.persists_named _ _ _
                      ⟨front, ofThens ++ (word ++ ofElses), by simp⟩ named
                  case thens =>
                    exact Stmt.persists_written.all _ _ _
                      ⟨front ++ ofCond, word ++ ofElses, by simp⟩ written
                  case elses =>
                    exact Stmt.persists_written.all _ _ _
                      ⟨front ++ ofCond ++ ofThens ++ word, [], by simp⟩ written'
          | while_ =>
              apply (spansAt_next (by simp)).bind
              rintro _ front -
              apply (spans_condition fuel.succ).bind
              intro cond ofCond named
              apply bodies.bind
              rintro body ofBody ⟨written, ready⟩
              apply spans_pure
              rw [List.append_nil]
              refine behind_of_own Stmt.persists_written (.loop ?cond ?body)
                ((ready.behind _).behind _)
              case cond => exact Expr.persists_named _ _ _ ⟨front, ofBody, by simp⟩ named
              case body =>
                exact Stmt.persists_written.all _ _ _ ⟨front ++ ofCond, [], by simp⟩ written
          | _ => exact Spans.at spans_unexpected _
      | punct mark =>
          cases mark with
          | openBrace =>
              apply Spans.at
              apply bodies.bind
              rintro body own ⟨written, ready⟩
              apply spans_pure
              rw [List.append_nil]
              exact behind_of_own Stmt.persists_written (.block written) ready
          | _ => exact Spans.at spans_unexpected _
      | _ => exact Spans.at spans_unexpected _

end Parse

end Wordlang
