import Wordlang.Proofs.Following

/-! # Following tokens and lists

The steps that every part of a program is read with follow grammars: taking a token that has
to be there, trying whether one is there, and reading items up to where a test stops them.
-/

namespace Wordlang

open Token (Kind Writable kinds)

namespace Parse

open Wordlang.Parser (Before)

variable {α β γ δ : Type} {work other : Parse α} {size bound : Nat}
  {one : α → List Kind → Prop} {shape : α → β} {s : Parser} {ahead : List Item}

def Refuses (work : Parse α) (kind : Kind) (expected : Expected) : Prop :=
  ∀ (s : Parser) (line : Nat) (later : List Item), s.Before (.ok { kind, line } :: later) →
    ∃ s', work s = .error (.unexpected kind expected line) s' ∧ s'.done = s.done

theorem Refuses.bind {kind : Kind} {expected : Expected} (refuses : Refuses work kind expected)
    (next : α → Parse γ) : Refuses (work >>= next) kind expected := by
  intro s line later before
  obtain ⟨s', ran, done⟩ := refuses s line later before
  exact ⟨s', run_bind_of_error ran, done⟩

/-- Work that refuses the next token ends as it should if anything can be written instead. -/
theorem Refuses.ends {token : Token} {rest : List Item} {expected : Expected}
    (refuses : Refuses work token.kind expected) (refuses' : Refuses other token.kind expected)
    (some : ∃ a own, one a own ∧ Writable own) (before : s.Before (.ok token :: rest)) :
    Ends other bound one shape s (.ok token :: rest) (work s) := by
  obtain ⟨a, own, isOne, writable⟩ := some
  obtain ⟨s', ran, done⟩ := refuses _ _ _ before
  rw [ran]
  refine .refused [] rfl isOne writable (by rw [done, List.append_nil]) ?_
  rintro more s₂ _ _ ⟨tokens, before₂, same⟩
  obtain ⟨⟨_, line⟩, later₂, rfl, rfl, _⟩ := List.map_eq_cons_iff.mp same
  obtain ⟨s₂', ran₂, _⟩ := refuses' _ _ _ before₂
  exact ⟨line, s₂', ran₂⟩

theorem ends_taken {token : Token} {rest : List Item} {b : β}
    (takes : ∀ {s : Parser} {line : Nat} {later : List Item},
      s.Before (.ok { kind := token.kind, line } :: later) → ∃ a s', work s = .ok a s' ∧
        one a [token.kind] ∧ shape a = b ∧ s'.Before later ∧
          s'.done = s.done ++ [{ kind := token.kind, line }] ∧ s'.nextId = s.nextId)
    (before : s.Before (.ok token :: rest)) :
    Ends work bound one shape s (.ok token :: rest) (work s) := by
  obtain ⟨a, s', ran, isOne, isShape, before', done, sameId⟩ := takes before
  rw [ran]
  obtain ⟨next, rest, rfl⟩ := before'.exists_cons
  refine .ok [token] rfl isOne before' done ?_
  rintro _ more s₂ _ _ sameId₂ ⟨tokens, before₂, same⟩
  obtain ⟨⟨_, line⟩, later₂, rfl, rfl, sameLater⟩ := List.map_eq_cons_iff.mp same
  obtain ⟨a₂, s₂', ran₂, _, isShape₂, before₂', _, sameId₂'⟩ := takes before₂
  exact ⟨a₂, s₂', ran₂, isShape₂.trans isShape.symm, by rw [sameId₂', sameId, sameId₂], later₂,
    before₂', sameLater⟩

theorem refuses_taking {makes : Kind → Option α} {kind : Kind} (none : makes kind = none)
    (expected : Expected) :
    Refuses (Parser.onStream (Stream.taking makes expected)) kind expected :=
  fun _ _ _ before => before.taking_none none expected

theorem follows_taking {makes : Kind → Option α} {expected : Expected} (noEof : makes .eof = none)
    (some : ∃ kind a, makes kind = some a ∧ kind.Writable) :
    Follows (Parser.onStream (Stream.taking makes expected))
      (Parser.onStream (Stream.taking makes expected)) size bound
      (fun a own => ∃ kind, makes kind = .some a ∧ own = [kind]) id := by
  obtain ⟨kind, a, made, writable⟩ := some
  have some : ∃ a own, (∃ kind, makes kind = .some a ∧ own = [kind]) ∧ Writable own :=
    ⟨a, [kind], ⟨kind, made, rfl⟩, by simpa using writable⟩
  refine ⟨some, fun s ahead before _ _ => ?_⟩
  obtain ⟨next, rest, rfl⟩ := before.exists_cons
  cases next with
  | error error =>
      obtain ⟨rfl, s', ran, done⟩ := before.taking_error makes expected
      rw [ran]
      exact .broken [] rfl (by rw [done, List.append_nil])
  | ok token =>
      cases found : makes token.kind with
      | none =>
          have refuses := refuses_taking found expected
          exact refuses.ends refuses some before
      | some b =>
          have isToken : token.kind ≠ .eof := fun isEof => by simp [isEof, noEof] at found
          refine ends_taken (b := b) (fun before => ?_) before
          obtain ⟨s', ran, before', done, sameId⟩ := before.taking_some isToken found expected
          exact ⟨b, s', ran, ⟨_, found, rfl⟩, rfl, before', done, sameId⟩

theorem follows_expect {kind : Kind} {class_ : Token.Class} (writable : kind.Writable)
    (isKind : ∀ other : Kind, other.class_ = class_ ↔ other = kind) :
    Follows (Parser.expect class_) (Parser.expect class_) size bound (fun _ own => own = [kind])
      id := by
  rw [Parser.expect, Stream.consume_eq_taking]
  refine (follows_taking ?noEof ⟨kind, (), if_pos ((isKind kind).mpr rfl), writable⟩).imp ?imp
  case noEof =>
    refine if_neg fun isEof => ?_
    rw [← (isKind _).mp isEof] at writable
    exact writable
  case imp =>
    rintro _ _ ⟨other, made, rfl⟩
    rw [(isKind other).mp (Option.ite_none_right_eq_some.mp made).1]

theorem follows_mark (mark : Punct) : Follows (Parser.mark mark) (Parser.mark mark) size bound
    (fun _ own => own = [.punct mark]) id :=
  follows_expect trivial fun other => by cases other <;> simp [Kind.class_]

theorem follows_word (word : Keyword) : Follows (Parser.word word) (Parser.word word) size bound
    (fun _ own => own = [.keyword word]) id :=
  follows_expect trivial fun other => by cases other <;> simp [Kind.class_]

theorem follows_ident :
    Follows Parser.ident Parser.ident size bound (fun name own => own = [.ident name]) id := by
  rw [Parser.ident, Stream.ident_eq_taking]
  refine (follows_taking rfl ⟨.ident "x", "x", rfl, Lexeme.isName_x⟩).imp ?_
  rintro _ _ ⟨kind, made, rfl⟩
  cases kind <;> cases made
  rfl

theorem follows_num :
    Follows Parser.num Parser.num size bound (fun value own => own = [.num value]) id := by
  rw [Parser.num, Stream.num_eq_taking]
  refine (follows_taking rfl ⟨.num 0, 0, rfl, Nat.zero_le _⟩).imp ?_
  rintro _ _ ⟨kind, made, rfl⟩
  cases kind <;> cases made
  rfl

private theorem ends_peek (bound : Nat) (before : s.Before ahead) :
    Ends Parser.peek bound (fun _ own => own = []) Token.kind s ahead (Parser.peek s) := by
  obtain ⟨next, rest, rfl⟩ := before.exists_cons
  cases next with
  | error error =>
      obtain ⟨rfl, s', ran, done⟩ := before.peek_error
      rw [ran]
      exact .broken [] rfl (by rw [done, List.append_nil])
  | ok token =>
      obtain ⟨s', ran, before', done, sameId⟩ := before.peek
      rw [ran]
      refine .ok [] rfl rfl before' (by rw [done, List.append_nil]) ?_
      rintro _ more s₂ ⟨⟩ _ sameId₂ ⟨tokens, before₂, same⟩
      obtain ⟨token₂, later₂, rfl, isKind, sameLater⟩ := List.map_eq_cons_iff.mp same
      obtain ⟨s₂', ran₂, before₂', _, sameId₂'⟩ := Before.peek before₂
      exact ⟨token₂, s₂', ran₂, isKind, by rw [sameId₂', sameId, sameId₂], token₂ :: later₂,
        before₂', same⟩

/-- Work that looks at the next token follows a grammar if it does for each kind of token. -/
theorem Follows.peek {next next' : Token → Parse α} (some : ∃ a own, one a own ∧ Writable own)
    (each : ∀ kind line line', FollowsAt kind (next { kind, line }) (next' { kind, line := line' })
      size bound one shape) :
    Follows (Parser.peek >>= next) (Parser.peek >>= next') size bound one shape := by
  refine ⟨some, fun s ahead before _ short => ?_⟩
  have ends := ends_peek bound before
  obtain ⟨item, rest, rfl⟩ := before.exists_cons
  cases item with
  | error error =>
      obtain ⟨rfl, s', ran, done⟩ := before.peek_error
      rw [run_bind_of_error ran]
      rw [ran] at ends
      refine ends.bind_error ?_
      rintro a own rfl
      exact some
  | ok token =>
      obtain ⟨s', ran, before', done, sameId⟩ := before.peek
      rw [run_bind_of_ok ran]
      rw [ran] at ends
      refine ends.bind_ok [] rfl (by rw [done, List.append_nil]) ?_
      rintro ⟨_, line'⟩ rfl
      exact each _ token.line line' s' _ before' ⟨token, rest, rfl, rfl⟩ short

theorem FollowsAt.next {kind : Kind} (isToken : kind ≠ .eof) {goal : γ → List Kind → Prop}
    {shape' : γ → δ} {next next' : Token → Parse γ}
    (each : ∀ line line', Follows (next { kind, line }) (next' { kind, line := line' })
      (size - 1) (bound - 1) (fun c later => goal c (kind :: later)) shape') :
    FollowsAt kind (Parser.next >>= next) (Parser.next >>= next') size bound goal shape' := by
  have first : FollowsAt kind Parser.next Parser.next size bound
      (fun token own => token.kind = kind ∧ own = [kind]) Token.kind := by
    rintro s _ before ⟨token, later, rfl, rfl⟩ _
    refine ends_taken (b := token.kind) (fun {_ line _} before => ?_) before
    obtain ⟨s', ran, before', done, sameId⟩ := before.next isToken
    exact ⟨{ kind := token.kind, line }, s', ran, ⟨rfl, rfl⟩, rfl, before', done, sameId⟩
  apply first.bind
  rintro ⟨_, line⟩ ⟨_, line'⟩ _ rfl ⟨rfl, rfl⟩
  exact each line line'

theorem follows_unexpected {wanted : Nonterminal} (some : ∃ a own, one a own ∧ Writable own) :
    Follows (Parser.unexpected wanted) (Parser.unexpected wanted) size bound one shape := by
  refine ⟨some, fun s ahead before _ _ => ?_⟩
  obtain ⟨next, rest, rfl⟩ := before.exists_cons
  cases next with
  | error error =>
      obtain ⟨rfl, s', ran, done⟩ := before.peek_error
      rw [Parser.unexpected, run_bind_of_error ran]
      exact .broken [] rfl (by rw [done, List.append_nil])
  | ok token =>
      have refuses : Refuses (Parser.unexpected wanted : Parse α) token.kind (.part wanted) :=
        fun _ _ _ before => before.unexpected wanted
      exact refuses.ends refuses some before

/-- A keyword that is not there is missed, whatever would come behind it. -/
theorem followsAt_missing {kind : Kind} {word : Keyword} {next next' : Unit → Parse α}
    (other : kind ≠ .keyword word) (some : ∃ a own, one a own ∧ Writable own) :
    FollowsAt kind (Parser.word word >>= next) (Parser.word word >>= next') size bound one
      shape := by
  have isOther : kind.class_ ≠ .keyword word := by
    cases kind <;> simp_all [Kind.class_]
  have misses : Refuses (Parser.word word) kind (.token (.keyword word)) := by
    rw [Parser.word, Parser.expect, Stream.consume_eq_taking]
    exact refuses_taking (if_neg isOther) _
  rintro s _ before ⟨token, later, rfl, rfl⟩ _
  exact (misses.bind next).ends (misses.bind next') some before

theorem follows_sees (wanted : Token.Class) :
    Follows (Parser.sees wanted) (Parser.sees wanted) size bound (fun _ own => own = []) id := by
  apply Follows.peek ⟨false, [], rfl, .nil⟩
  intro kind line line'
  apply Follows.at
  exact follows_pure rfl rfl

def given (kind : Kind) (isGiven : Bool) (own : List Kind) : Prop :=
  own = bif isGiven then [kind] else []

theorem follows_accept (mark : Punct) : Follows (Parser.accept mark) (Parser.accept mark) size
    bound (given (.punct mark)) id := by
  apply (follows_sees _).then
  rintro isMark _ rfl
  cases isMark
  · exact follows_pure rfl rfl
  · apply (follows_mark mark).then
    rintro _ _ rfl
    exact follows_pure rfl rfl

theorem follows_acceptWord (word : Keyword) : Follows (Parser.acceptWord word)
    (Parser.acceptWord word) size bound (given (.keyword word)) id := by
  apply (follows_sees _).then
  rintro isWord _ rfl
  cases isWord
  · exact follows_pure rfl rfl
  · apply (follows_word word).then
    rintro _ _ rfl
    exact follows_pure rfl rfl

/-- Work and other work that have fuel for as much as is ahead of them, by induction on the
    fuel of the one. When the other has none left, nothing is asked of it. -/
theorem fuel_induction {P : Nat → Nat → Nat → Nat → Prop} (zero : ∀ m bound, P 0 m 0 bound)
    (unbounded : ∀ n m m' size, P n m size 0 → P n m' size 0)
    (step : ∀ n m, (∀ size bound, size ≤ n → bound ≤ m → P n m size bound) →
      ∀ size bound, size ≤ n + 1 → bound ≤ m + 1 → P (n + 1) (m + 1) size bound)
    {n m size bound : Nat} (enough : size ≤ n) (enough' : bound ≤ m) : P n m size bound := by
  induction n generalizing m size bound with
  | zero =>
      obtain rfl := Nat.le_zero.mp enough
      exact zero m bound
  | succ n ih =>
      cases m with
      | succ m => exact step n m (fun _ _ small small' => ih small small') size bound enough enough'
      | zero =>
          obtain rfl := Nat.le_zero.mp enough'
          exact unbounded (n + 1) 1 0 size
            (step n 0 (fun _ _ small small' => ih small small') size 0 enough (Nat.zero_le _))

/-- Work that gets fuel follows a grammar if it does so with more fuel than work inside it. -/
theorem Follows.ofFuel {f f' : Nat → Parse α} (some : ∃ a own, one a own ∧ Writable own)
    (step : ∀ n m,
      (∀ {size' bound'}, size' ≤ n → bound' ≤ m → size' ≤ size → bound' ≤ bound →
        Follows (f n) (f' m) size' bound' one shape) →
      ∀ {size' bound'}, size' ≤ n + 1 → bound' ≤ m + 1 → size' ≤ size → bound' ≤ bound →
        Follows (f (n + 1)) (f' (m + 1)) size' bound' one shape) {n m : Nat}
    (enough : size ≤ n) (enough' : bound ≤ m) : Follows (f n) (f' m) size bound one shape := by
  have all : size ≤ size → bound ≤ bound → Follows (f n) (f' m) size bound one shape := by
    refine fuel_induction (P := fun n m size' bound' => size' ≤ size → bound' ≤ bound →
      Follows (f n) (f' m) size' bound' one shape) ?zero ?unbounded ?step enough enough'
    case zero => exact fun _ _ _ _ => .zero some
    case unbounded => exact fun _ _ _ _ follows small le => (follows small le).unbounded _
    case step =>
      intro n m ih size' bound' few few' small le
      exact step n m (fun few few' small le => ih _ _ few few' small le) few few' small le
  exact all (Nat.le_refl _) (Nat.le_refl _)

/-- Items are written one after the other, with what a test takes before each and at the end. -/
inductive Loop (tests : Bool → List Kind → Prop) (one : α → List Kind → Prop) :
    List α → List Kind → Prop where
  | stop {own : List Kind} : tests false own → Loop tests one [] own
  | more {a : α} {rest : List α} {own first later : List Kind} :
      tests true own → one a first → Loop tests one rest later →
      Loop tests one (a :: rest) (own ++ (first ++ later))

theorem Follows.whileM {test : Parse Bool} {item item' : Parse α} {tests : Bool → List Kind → Prop}
    (each : Follows item item' size bound one shape)
    (tested : ∀ {size bound}, Follows test test size bound tests id)
    (pos : ∀ {a own}, one a own → 0 < own.length)
    (stop : ∃ own, tests false own ∧ Writable own) {n m : Nat} (enough : size ≤ n)
    (enough' : bound ≤ m) :
    Follows (Parser.whileM test item n) (Parser.whileM test item' m) size bound (Loop tests one)
      (List.map shape) := by
  obtain ⟨last, isLast, writable⟩ := stop
  apply Follows.ofFuel ⟨[], last, .stop isLast, writable⟩ ?step enough enough'
  intro n m ih size' bound' _ _ _ _
  apply tested.then
  intro goesOn own isTest
  cases goesOn
  · exact follows_pure rfl (by simpa using Loop.stop isTest)
  · apply (each.mono (by omega) (by omega)).bind
    intro a b first same isOne
    have some := pos isOne
    apply (ih (by omega) (by omega) (by omega) (by omega)).bind
    intro rest rest' later sameRest isRest
    refine follows_pure ?_ (by simpa using Loop.more isTest isOne isRest)
    rw [List.map_cons, List.map_cons, same, sameRest]

theorem Loop.commas {a : α} {items : List α} {first later : List Kind}
    (loop : Loop (given (.punct .comma)) one items later) (isOne : one a first) :
    Spelling.Commas one (a :: items) (first ++ later) := by
  induction loop generalizing a first with
  | stop isTest =>
      obtain rfl := isTest
      simpa using Spelling.Commas.last isOne
  | more isTest isNext _ ih =>
      obtain rfl := isTest
      simpa using Spelling.Commas.more isOne (ih isNext)

theorem Follows.commaList {item item' : Parse α} (each : Follows item item' size bound one shape)
    (pos : ∀ {a own}, one a own → 0 < own.length) {n m : Nat} (enough : size ≤ n)
    (enough' : bound ≤ m) :
    Follows (Parser.commaList item n) (Parser.commaList item' m) size bound (Spelling.Commas one)
      (List.map shape) := by
  apply each.bind
  intro a b first same isOne
  have others := (each.whileM (follows_accept .comma) pos ⟨[], rfl, .nil⟩ enough enough').mono
    (Nat.sub_le size first.length) (Nat.sub_le bound first.length)
  apply others.bind
  intro rest rest' later sameRest isRest
  refine follows_pure ?_ (by simpa using isRest.commas isOne)
  rw [List.map_cons, List.map_cons, same, sameRest]

theorem Follows.parenList {item item' : Parse α} (each : Follows item item' size bound one shape)
    (pos : ∀ {a own}, one a own → 0 < own.length) {n m : Nat} (enough : size ≤ n)
    (enough' : bound ≤ m) :
    Follows (Parser.parenList item n) (Parser.parenList item' m) size bound
      (fun items later => Spelling.Parens one items (.punct .openParen :: later))
      (List.map shape) := by
  apply (follows_accept .closeParen).then
  rintro isClosed _ rfl
  cases isClosed
  · apply ((each.commaList pos enough enough').mono (Nat.sub_le _ _) (Nat.sub_le _ _)).bind
    intro items items' own same spelled
    apply (follows_mark .closeParen).then
    rintro _ _ rfl
    exact follows_pure same (.some spelled)
  · exact follows_pure rfl .none

theorem Loop.sequence {items : List α} {kinds : List Kind}
    (loop : Loop (fun _ own => own = []) one items kinds) :
    Spelling.Sequence one items kinds := by
  induction loop with
  | stop isTest =>
      subst isTest
      exact .nil
  | more isTest isNext _ ih =>
      subst isTest
      rw [List.nil_append]
      exact .cons isNext ih

/-- Items up to a closing mark. -/
theorem Loop.closed {close : Kind} {items : List α} {kinds : List Kind}
    (loop : Loop (fun goesOn => given close !goesOn) one items kinds) :
    ∃ inner, Spelling.Sequence one items inner ∧ kinds = inner ++ [close] := by
  induction loop with
  | stop isTest =>
      obtain rfl := isTest
      exact ⟨[], .nil, rfl⟩
  | more isTest isNext _ ih =>
      obtain rfl := isTest
      obtain ⟨inner, isRest, rfl⟩ := ih
      exact ⟨_, .cons isNext isRest, by simp⟩

end Parse

end Wordlang
