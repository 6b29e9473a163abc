import Wordlang.Proofs.Following.Parts
import Wordlang.Scope.Blame

/-! # Tokens of results

What work on a parser has to do with the tokens that it takes, their lines included. Where it
succeeds, it has taken tokens off those ahead, and its result says something about just these:
work behind other work says it about the tokens of both.
-/

namespace Wordlang

open Token (Kind)

/-- Behind some tokens a statement or a declaration may begin: the last one of them ends another
    one, or begins a block. -/
def Token.Ready (tokens : List Token) : Prop :=
  ∃ before last, tokens = before ++ [last] ∧ ¬ last.Inner

theorem Token.ready_singleton {last : Token} (ends : ¬ last.Inner) : Token.Ready [last] :=
  ⟨[], last, rfl, ends⟩

theorem Token.Ready.behind {tokens : List Token} (ready : Token.Ready tokens)
    (front : List Token) : Token.Ready (front ++ tokens) := by
  obtain ⟨before, last, rfl, ends⟩ := ready
  exact ⟨front ++ before, last, by simp, ends⟩

namespace Parse

open Wordlang.Parser (Before)

variable {α β γ : Type} {starts : List Item → Prop} {work : Parse α}
  {one one' : α → List Token → Prop} {token : Token}

/-- Where some items are ahead and work succeeds, it has taken tokens off them that have to do
    with its result. -/
def SpansFrom (starts : List Item → Prop) (work : Parse α) (one : α → List Token → Prop) : Prop :=
  ∀ s ahead, s.Before ahead → starts ahead → ∀ a s', work s = .ok a s' →
    ∃ own rest, ahead = own.map .ok ++ rest ∧ s'.Before rest ∧ one a own

/-- Wherever work succeeds, the tokens that it has taken have to do with its result. -/
abbrev Spans (work : Parse α) (one : α → List Token → Prop) : Prop :=
  SpansFrom (fun _ => True) work one

/-- Where a token is ahead and work succeeds, the tokens that it has taken have to do with its
    result. -/
abbrev SpansAt (token : Token) (work : Parse α) (one : α → List Token → Prop) : Prop :=
  SpansFrom (fun ahead => ∃ later, ahead = .ok token :: later) work one

theorem SpansFrom.imp (spans : SpansFrom starts work one)
    (imp : ∀ {a own}, one a own → one' a own) : SpansFrom starts work one' := by
  intro s ahead before start a s' ran
  obtain ⟨own, rest, isAhead, before', isOne⟩ := spans s ahead before start a s' ran
  exact ⟨own, rest, isAhead, before', imp isOne⟩

theorem Spans.at (spans : Spans work one) (token : Token) : SpansAt token work one :=
  fun s ahead before _ => spans s ahead before trivial

theorem spans_pure {a : α} (isOne : one a []) : Spans (pure a) one := by
  intro s ahead before _ a' s' ran
  obtain ⟨rfl, rfl⟩ := run_pure_eq_ok.mp ran
  exact ⟨[], ahead, rfl, before, isOne⟩

theorem SpansFrom.bind {next : α → Parse β} {goal : β → List Token → Prop}
    (first : SpansFrom starts work one)
    (second : ∀ a own, one a own → (next a).Spans fun b later => goal b (own ++ later)) :
    SpansFrom starts (work >>= next) goal := by
  intro s ahead before start b s₂ ran
  obtain ⟨a, s₁, here, there⟩ := run_bind_eq_ok.mp ran
  obtain ⟨own, rest, rfl, before₁, isOne⟩ := first s ahead before start a s₁ here
  obtain ⟨later, rest', rfl, before₂, isGoal⟩ :=
    second a own isOne s₁ rest before₁ trivial b s₂ there
  exact ⟨own ++ later, rest', by simp, before₂, isGoal⟩

theorem SpansFrom.then {next : α → Parse β} {goal : β → List Token → Prop}
    (first : SpansFrom starts work fun _ own => own = []) (second : ∀ a, (next a).Spans goal) :
    SpansFrom starts (work >>= next) goal := by
  apply first.bind
  rintro a _ rfl
  exact second a

/-- Work that looks at the next token goes on with it. -/
theorem spans_peek {next : Token → Parse α} (each : ∀ token, (next token).SpansAt token one) :
    Spans (Parser.peek >>= next) one := by
  intro s ahead before _ a s₂ ran
  obtain ⟨token, s₁, here, there⟩ := run_bind_eq_ok.mp ran
  obtain ⟨item, rest, rfl⟩ := before.exists_cons
  cases item with
  | error error =>
      obtain ⟨-, s', failed, -⟩ := before.peek_error
      cases failed.symm.trans here
  | ok found =>
      obtain ⟨s', seen, before', -, -⟩ := before.peek
      cases seen.symm.trans here
      exact each _ _ _ before' ⟨rest, rfl⟩ a s₂ there

theorem spansAt_next (some : token.kind ≠ .eof) :
    SpansAt token Parser.next fun found own => found = token ∧ own = [token] := by
  rintro s _ before ⟨rest, rfl⟩ found s' ran
  obtain ⟨s₁, taken, before', -, -⟩ := before.next some
  cases taken.symm.trans ran
  exact ⟨[token], rest, rfl, before', rfl, rfl⟩

theorem spans_taking {makes : Kind → Option α} {expected : Expected} (noEof : makes .eof = none) :
    Spans (Parser.onStream (Stream.taking makes expected)) fun a own =>
      ∃ token, own = [token] ∧ makes token.kind = some a := by
  intro s ahead before _ a s' ran
  obtain ⟨item, rest, rfl⟩ := before.exists_cons
  cases item with
  | error error =>
      obtain ⟨-, s₁, failed, -⟩ := before.taking_error makes expected
      cases failed.symm.trans ran
  | ok token =>
      cases made : makes token.kind with
      | none =>
          obtain ⟨s₁, failed, -⟩ := before.taking_none made expected
          cases failed.symm.trans ran
      | some b =>
          have isToken : token.kind ≠ .eof := fun isEof => by simp [isEof, noEof] at made
          obtain ⟨s₁, taken, before', -, -⟩ := before.taking_some isToken made expected
          cases taken.symm.trans ran
          exact ⟨[token], rest, rfl, before', token, rfl, made⟩

/-- Work that takes one token takes the one that is ahead. -/
theorem Spans.atToken {taken : α → Token → Prop}
    (spans : Spans work fun a own => ∃ token, own = [token] ∧ taken a token) (token : Token) :
    SpansAt token work fun a own => own = [token] ∧ taken a token := by
  rintro s _ before ⟨later, rfl⟩ a s' ran
  obtain ⟨_, rest, isAhead, before', found, rfl, isTaken⟩ := spans s _ before trivial a s' ran
  obtain ⟨same, rfl⟩ := List.cons.inj isAhead
  obtain rfl := Except.ok.inj same
  exact ⟨[token], later, rfl, before', rfl, isTaken⟩

theorem spans_expect {kind : Kind} {class_ : Token.Class} (some : kind ≠ .eof)
    (isKind : ∀ other : Kind, other.class_ = class_ ↔ other = kind) :
    Spans (Parser.expect class_) fun _ own => ∃ token, own = [token] ∧ token.kind = kind := by
  rw [Parser.expect, Stream.consume_eq_taking]
  refine (spans_taking ?noEof).imp ?imp
  case noEof => exact if_neg fun isEof => some ((isKind _).mp isEof).symm
  case imp =>
    rintro _ _ ⟨token, rfl, made⟩
    exact ⟨token, rfl, (isKind _).mp (Option.ite_none_right_eq_some.mp made).1⟩

theorem spans_mark (mark : Punct) :
    Spans (Parser.mark mark) fun _ own => ∃ token, own = [token] ∧ token.kind = .punct mark :=
  spans_expect nofun fun other => by cases other <;> simp [Kind.class_]

theorem spans_word (word : Keyword) :
    Spans (Parser.word word) fun _ own => ∃ token, own = [token] ∧ token.kind = .keyword word :=
  spans_expect nofun fun other => by cases other <;> simp [Kind.class_]

theorem spans_ident :
    Spans Parser.ident fun name own => ∃ token, own = [token] ∧ token.kind = .ident name := by
  rw [Parser.ident, Stream.ident_eq_taking]
  refine (spans_taking rfl).imp ?_
  rintro name _ ⟨token, rfl, made⟩
  refine ⟨token, rfl, ?_⟩
  cases isKind : token.kind <;> simp_all

theorem spans_num :
    Spans Parser.num fun value own => ∃ token, own = [token] ∧ token.kind = .num value := by
  rw [Parser.num, Stream.num_eq_taking]
  refine (spans_taking rfl).imp ?_
  rintro value _ ⟨token, rfl, made⟩
  refine ⟨token, rfl, ?_⟩
  cases isKind : token.kind <;> simp_all

theorem spans_unexpected {wanted : Nonterminal} : Spans (Parser.unexpected wanted) one := by
  intro s ahead before _ a s' ran
  obtain ⟨item, rest, rfl⟩ := before.exists_cons
  cases item with
  | error error =>
      obtain ⟨-, s₁, failed, -⟩ := before.peek_error
      cases (run_bind_of_error failed).symm.trans ran
  | ok token =>
      obtain ⟨s₁, failed, -⟩ := before.unexpected wanted
      cases failed.symm.trans ran

theorem spans_node (line : Nat) :
    Spans (Parser.node line) fun node own => own = [] ∧ node.line = line := by
  intro s ahead before _ node s' ran
  cases ran
  exact ⟨[], ahead, rfl, before.withId _, rfl, rfl⟩

theorem spans_sees (wanted : Token.Class) :
    Spans (Parser.sees wanted) fun _ own => own = [] := by
  apply spans_peek
  intro token
  apply Spans.at
  exact spans_pure rfl

theorem spans_accept (mark : Punct) : Spans (Parser.accept mark) fun isMark own =>
    if isMark then ∃ token, own = [token] ∧ token.kind = .punct mark else own = [] := by
  apply (spans_sees _).then
  intro isMark
  cases isMark with
  | false => exact spans_pure rfl
  | true =>
      apply (spans_mark mark).bind
      rintro _ own taken
      exact spans_pure (by simpa using taken)

theorem spans_acceptWord (word : Keyword) : Spans (Parser.acceptWord word) fun isWord own =>
    if isWord then ∃ token, own = [token] ∧ token.kind = .keyword word else own = [] := by
  apply (spans_sees _).then
  intro isWord
  cases isWord with
  | false => exact spans_pure rfl
  | true =>
      apply (spans_word word).bind
      rintro _ own taken
      exact spans_pure (by simpa using taken)

/-- A loop takes the tokens of its test and of an item by turns, up to those of a test that ends
    it. -/
theorem spans_whileM {test : Parse Bool} {tested : Bool → List Token → Prop}
    {all : List α → List Token → Prop} (tests : test.Spans tested) (items : work.Spans one)
    (none : all [] []) (stop : ∀ {own}, tested false own → all [] own)
    (more : ∀ {a rest front own later}, tested true front → one a own → all rest later →
      all (a :: rest) (front ++ (own ++ later))) (fuel : Nat) :
    (Parser.whileM test work fuel).Spans all := by
  induction fuel with
  | zero => exact spans_pure none
  | succ fuel ih =>
      apply tests.bind
      intro goesOn front fronts
      cases goesOn with
      | false => exact spans_pure (by simpa using stop fronts)
      | true =>
          apply items.bind
          intro a own isOne
          apply ih.bind
          intro rest later isRest
          apply spans_pure
          rw [List.append_nil]
          exact more fronts isOne isRest

/-- What an item has to do with some tokens it has to do with more tokens around them. -/
def Persists (one : α → List Token → Prop) : Prop :=
  ∀ a own own', own <:+: own' → one a own → one a own'

theorem Persists.all (persists : Persists one) :
    Persists fun (items : List α) own => ∀ a ∈ items, one a own :=
  fun _ _ _ inside each a mem => persists _ _ _ inside (each a mem)

def Each (one : α → List Token → Prop) (sort : Token → Prop) (items : List α)
    (own : List Token) : Prop :=
  (∀ a ∈ items, one a own) ∧ ∀ token ∈ own, sort token

section Each

variable {sort : Token → Prop}

theorem Each.cons (persists : Persists one) {a : α} {items : List α} {front own later : List Token}
    (fronts : ∀ token ∈ front, sort token) (isOne : one a own) (owns : ∀ token ∈ own, sort token)
    (each : Each one sort items later) : Each one sort (a :: items) (front ++ (own ++ later)) := by
  obtain ⟨others, laters⟩ := each
  have behind : later <:+: front ++ (own ++ later) :=
    ⟨front ++ own, [], by simp⟩
  refine ⟨List.forall_mem_cons.mpr ⟨persists _ _ _ ⟨front, later, by simp⟩ isOne, ?_⟩, ?_⟩
  · exact fun b mem => persists _ _ _ behind (others b mem)
  · exact List.forall_mem_append.mpr ⟨fronts, List.forall_mem_append.mpr ⟨owns, laters⟩⟩

theorem spans_whileM_each (persists : Persists one) {test : Parse Bool}
    (tests : test.Spans fun _ own => ∀ token ∈ own, sort token)
    (items : work.Spans fun a own => one a own ∧ ∀ token ∈ own, sort token) (fuel : Nat) :
    (Parser.whileM test work fuel).Spans (Each one sort) := by
  refine spans_whileM tests items ?none ?stop ?more fuel
  case none => exact ⟨List.forall_mem_nil _, List.forall_mem_nil _⟩
  case stop => exact fun owns => ⟨List.forall_mem_nil _, owns⟩
  case more => exact fun fronts ⟨isOne, owns⟩ each => each.cons persists fronts isOne owns

theorem spans_commaList (persists : Persists one)
    (commas : ∀ token : Token, token.kind = .punct .comma → sort token)
    (items : work.Spans fun a own => one a own ∧ ∀ token ∈ own, sort token) (fuel : Nat) :
    (Parser.commaList work fuel).Spans (Each one sort) := by
  apply items.bind
  rintro a own ⟨isOne, owns⟩
  have tests : (Parser.accept .comma).Spans fun _ own => ∀ token ∈ own, sort token := by
    refine (spans_accept .comma).imp ?_
    intro isComma own taken
    cases isComma with
    | false => simp_all
    | true =>
        obtain ⟨token, rfl, isKind⟩ := by simpa using taken
        exact List.forall_mem_singleton.mpr (commas token isKind)
  apply (spans_whileM_each persists tests items fuel).bind
  intro others later each
  apply spans_pure
  rw [List.append_nil]
  exact each.cons persists (List.forall_mem_nil _) isOne owns

theorem spans_parenList (persists : Persists one) (items : work.Spans one) (fuel : Nat) :
    (Parser.parenList work fuel).Spans fun as own => ∀ a ∈ as, one a own := by
  apply (spans_accept .closeParen).bind
  intro isEmpty front _
  cases isEmpty with
  | true => exact spans_pure (List.forall_mem_nil _)
  | false =>
      have each : work.Spans fun a own => one a own ∧ ∀ token ∈ own, True :=
        items.imp fun isOne => ⟨isOne, fun _ _ => trivial⟩
      apply (spans_commaList persists (fun _ _ => trivial) each fuel).bind
      rintro as own ⟨isOne, -⟩
      apply (spans_mark .closeParen).bind
      intro _ last _
      apply spans_pure
      exact persists.all _ _ _ ⟨front, last, by simp⟩ isOne

end Each

/-- Behind tokens that are ready for an item, it has to do with all of them and its own, and these
    are ready for another item. -/
def Behind (one : α → List Token → Prop) (a : α) (own : List Token) : Prop :=
  ∀ before, Token.Ready before → one a (before ++ own) ∧ Token.Ready (before ++ own)

/-- Of the tokens before an item, only the last one matters to it. -/
theorem behind_of_last (persists : Persists one) {a : α} {own : List Token}
    (isOne : ∀ front : Token, ¬ front.Inner → one a (front :: own)) (ready : Token.Ready own) :
    Behind one a own := by
  rintro _ ⟨before, front, rfl, ends⟩
  exact ⟨persists _ _ _ ⟨before, [], by simp⟩ (isOne front ends), ready.behind _⟩

/-- What an item has to do with its own tokens alone does not depend on those before it. -/
theorem behind_of_own (persists : Persists one) {a : α} {own : List Token} (isOne : one a own)
    (ready : Token.Ready own) : Behind one a own :=
  behind_of_last persists (fun front _ => persists _ _ _ ⟨[front], [], by simp⟩ isOne) ready

theorem Behind.cons (persists : Persists one) {a : α} {items : List α} {own later : List Token}
    (first : Behind one a own)
    (rest : Behind (fun items own => ∀ b ∈ items, one b own) items later) :
    Behind (fun items own => ∀ b ∈ items, one b own) (a :: items) (own ++ later) := by
  intro before ready
  obtain ⟨isOne, ready⟩ := first before ready
  obtain ⟨others, ready⟩ := rest _ ready
  rw [List.append_assoc] at others ready
  refine ⟨List.forall_mem_cons.mpr ⟨persists _ _ _ ⟨[], later, by simp⟩ isOne, others⟩, ready⟩

/-- The test takes tokens only where no item follows. -/
theorem spans_whileM_behind (persists : Persists one) {test : Parse Bool}
    (tests : test.Spans fun goesOn own => own = [] ∨ goesOn = false ∧ Token.Ready own)
    (items : work.Spans (Behind one)) (fuel : Nat) :
    (Parser.whileM test work fuel).Spans (Behind fun items own => ∀ a ∈ items, one a own) := by
  have none : Behind (fun (items : List α) own => ∀ a ∈ items, one a own) [] [] :=
    fun before ready => ⟨List.forall_mem_nil _, by rwa [List.append_nil]⟩
  refine spans_whileM tests items none ?stop ?more fuel
  case stop =>
    rintro own (rfl | ⟨-, ready⟩)
    · exact none
    · exact fun before _ => ⟨List.forall_mem_nil _, ready.behind before⟩
  case more =>
    intro a rest front own later fronts isOne each
    obtain rfl : front = [] := by simpa using fronts
    exact isOne.cons persists each

end Parse

end Wordlang
