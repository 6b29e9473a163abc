import Wordlang.Proofs.Lexing
import Wordlang.Proofs.Success
import Wordlang.Tree.Grammar
import Wordlang.Tree.Parser.Program

/-! # Reading tokens

What work on a parser makes of the tokens ahead. A parser that has looked at a token has
the same tokens ahead as before. The rules for lists say when a list of parts is read as
it was written: every part is followed by something at which its reading stops.
-/

namespace Wordlang

open Token (Kind)

namespace Parser

def front (kinds : List Kind) : Kind := kinds.headD .eof

/-- The tokens that a parser has yet to take, up to the end of the text. -/
inductive Ahead : Parser → List Kind → Prop where
  | fresh {cursor : Cursor} {scanned : Array Token} {nextId : Nat} {kinds : List Kind} :
      cursor.Yields kinds →
      Ahead { stream := { cursor, lookahead := none, scanned }, nextId } kinds
  | seen {cursor : Cursor} {scanned : Array Token} {nextId line : Nat} {kind : Kind}
      {kinds : List Kind} :
      cursor.Yields kinds →
      Ahead { stream := { cursor, lookahead := some { kind, line }, scanned }, nextId }
        (kind :: kinds)
  | ended {cursor : Cursor} {scanned : Array Token} {nextId line : Nat} :
      Ahead { stream := { cursor, lookahead := some { kind := .eof, line }, scanned }, nextId } []

end Parser

namespace Parse

open Wordlang.Parser (Ahead front)

/-- Work succeeds where some tokens are ahead, leaves others ahead, and its result is as
    wanted. -/
def Takes {α : Type} (work : Parse α) (before after : List Kind) (wanted : α → Prop) : Prop :=
  ∀ s : Parser, s.Ahead before → ∃ a s', work s = .ok a s' ∧ wanted a ∧ s'.Ahead after

variable {α β : Type} {before middle after kinds rest : List Kind} {wanted wanted' : α → Prop}

theorem takes_pure {a : α} (h : wanted a) : Takes (pure a) kinds kinds wanted :=
  fun s ahead => ⟨a, s, rfl, h, ahead⟩

theorem Takes.bind {work : Parse α} {next : α → Parse β} {wanted' : β → Prop}
    (first : work.Takes before middle wanted)
    (second : ∀ a, wanted a → (next a).Takes middle after wanted') :
    Takes (work >>= next) before after wanted' := by
  intro s ahead
  obtain ⟨a, s₁, ran, here, ahead₁⟩ := first s ahead
  obtain ⟨b, s₂, ran', there, ahead₂⟩ := second a here s₁ ahead₁
  exact ⟨b, s₂, run_bind_eq_ok.mpr ⟨a, s₁, ran, ran'⟩, there, ahead₂⟩

theorem Takes.weaken {work : Parse α} (h : work.Takes before after wanted)
    (imp : ∀ a, wanted a → wanted' a) : work.Takes before after wanted' := by
  intro s ahead
  obtain ⟨a, s', ran, here, ahead'⟩ := h s ahead
  exact ⟨a, s', ran, imp a here, ahead'⟩

theorem peek_ahead {s : Parser} (ahead : s.Ahead kinds) : ∃ cursor line scanned,
    Stream.peek s.stream = .ok { kind := front kinds, line }
        { cursor, lookahead := some { kind := front kinds, line }, scanned } ∧
      (∀ nextId, Ahead { stream :=
        { cursor, lookahead := some { kind := front kinds, line }, scanned }, nextId } kinds) ∧
        (kinds ≠ [] → cursor.Yields kinds.tail) := by
  cases ahead with
  | seen yields => exact ⟨_, _, _, rfl, fun _ => .seen yields, fun _ => yields⟩
  | ended => exact ⟨_, _, _, rfl, fun _ => .ended, fun some => absurd rfl some⟩
  | @fresh cursor earlier _ _ yields =>
      cases yields with
      | @nil _ after line scanned =>
          have peeked : Stream.peek { cursor, scanned := earlier } = .ok { kind := .eof, line }
              { cursor := after, lookahead := some { kind := .eof, line },
                scanned := earlier.push { kind := .eof, line } } := by
            simp only [Stream.peek, Stream.advance, scanned]
          exact ⟨_, _, _, peeked, fun _ => .ended, fun some => absurd rfl some⟩
      | @cons _ after line kind _ scanned _ yields =>
          have peeked : Stream.peek { cursor, scanned := earlier } = .ok { kind, line }
              { cursor := after, lookahead := some { kind, line },
                scanned := earlier.push { kind, line } } := by
            simp only [Stream.peek, Stream.advance, scanned]
          exact ⟨_, _, _, peeked, fun _ => .seen yields, fun _ => yields⟩

theorem takes_peek : Parser.peek.Takes kinds kinds (·.kind = front kinds) := by
  intro s ahead
  obtain ⟨cursor, line, scanned, peeked, there, _⟩ := peek_ahead ahead
  have ran : Parser.peek s = .ok { kind := front kinds, line }
      { stream := { cursor, lookahead := some { kind := front kinds, line }, scanned }
        nextId := s.nextId } := by
    simp only [Parser.peek, Parser.onStream, peeked]
  exact ⟨_, _, ran, rfl, there s.nextId⟩

theorem Takes.seen {kind : Kind} {next : Token → Parse α}
    (goesOn : ∀ line, (next { kind, line }).Takes (kind :: kinds) after wanted) :
    (Parser.peek >>= next).Takes (kind :: kinds) after wanted := by
  apply takes_peek.bind
  rintro ⟨_, line⟩ rfl
  exact goesOn line

theorem takes_onStream {work : Reading α} {kind : Kind}
    (drops : ∀ stream line cursor scanned, Stream.peek stream = .ok { kind, line }
        { cursor, lookahead := some { kind, line }, scanned } →
      ∃ a, work stream = .ok a { cursor, lookahead := none, scanned } ∧ wanted a) :
    (Parser.onStream work).Takes (kind :: kinds) kinds wanted := by
  intro s ahead
  obtain ⟨cursor, line, scanned, peeked, _, yields⟩ := peek_ahead ahead
  obtain ⟨a, worked, here⟩ := drops s.stream line cursor scanned peeked
  have ran : Parser.onStream work s =
      .ok a { stream := { cursor, lookahead := none, scanned }, nextId := s.nextId } := by
    simp only [Parser.onStream, worked]
  exact ⟨a, _, ran, here, .fresh (yields nofun)⟩

theorem takes_next {kind : Kind} : Parser.next.Takes (kind :: kinds) kinds (·.kind = kind) := by
  apply takes_onStream
  intro stream line cursor scanned peeked
  refine ⟨{ kind, line }, ?_, rfl⟩
  simp only [Stream.next, bind, EStateM.bind, peeked]
  rfl

theorem takes_expect {kind : Kind} {class_ : Token.Class} (isWanted : kind.class_ = class_) :
    (Parser.expect class_).Takes (kind :: kinds) kinds fun _ => True := by
  apply takes_onStream
  intro stream line cursor scanned peeked
  refine ⟨(), ?_, trivial⟩
  simp only [Stream.consume, bind, EStateM.bind, peeked, isWanted, if_true]
  rfl

theorem takes_mark (mark : Punct) :
    (Parser.mark mark).Takes (.punct mark :: kinds) kinds fun _ => True := takes_expect rfl

theorem takes_word (word : Keyword) :
    (Parser.word word).Takes (.keyword word :: kinds) kinds fun _ => True := takes_expect rfl

theorem takes_ident {name : String} :
    Parser.ident.Takes (.ident name :: kinds) kinds (· = name) := by
  apply takes_onStream
  intro stream line cursor scanned peeked
  refine ⟨name, ?_, rfl⟩
  simp only [Stream.ident, bind, EStateM.bind, peeked]
  rfl

theorem takes_num {value : Nat} : Parser.num.Takes (.num value :: kinds) kinds (· = value) := by
  apply takes_onStream
  intro stream line cursor scanned peeked
  refine ⟨value, ?_, rfl⟩
  simp only [Stream.num, bind, EStateM.bind, peeked]
  rfl

theorem takes_sees (class_ : Token.Class) :
    (Parser.sees class_).Takes kinds kinds (· = decide ((front kinds).class_ = class_)) := by
  apply takes_peek.bind
  rintro token isFront
  exact takes_pure (by rw [isFront])

theorem takes_accept {mark : Punct} :
    (Parser.accept mark).Takes (.punct mark :: kinds) kinds (· = true) := by
  apply (takes_sees _).bind
  rintro _ rfl
  rw [if_pos (by simp [front, Kind.class_])]
  exact (takes_mark mark).bind fun _ _ => takes_pure rfl

theorem takes_accept_not {mark : Punct} (other : front kinds ≠ .punct mark) :
    (Parser.accept mark).Takes kinds kinds (· = false) := by
  have noMark : (front kinds).class_ ≠ .punct mark := by
    cases isFront : front kinds <;> simp_all [Kind.class_]
  apply (takes_sees _).bind
  rintro _ rfl
  rw [if_neg (by simpa using noMark)]
  exact takes_pure rfl

theorem takes_acceptWord {word : Keyword} :
    (Parser.acceptWord word).Takes (.keyword word :: kinds) kinds (· = true) := by
  apply (takes_sees _).bind
  rintro _ rfl
  rw [if_pos (by simp [front, Kind.class_])]
  exact (takes_word word).bind fun _ _ => takes_pure rfl

theorem takes_acceptWord_not {word : Keyword} (other : front kinds ≠ .keyword word) :
    (Parser.acceptWord word).Takes kinds kinds (· = false) := by
  have noWord : (front kinds).class_ ≠ .keyword word := by
    cases isFront : front kinds <;> simp_all [Kind.class_]
  apply (takes_sees _).bind
  rintro _ rfl
  rw [if_neg (by simpa using noWord)]
  exact takes_pure rfl

theorem takes_node (line : Nat) : (Parser.node line).Takes kinds kinds fun _ => True := by
  intro s ahead
  refine ⟨_, _, rfl, trivial, ?_⟩
  cases ahead with
  | fresh yields => exact .fresh yields
  | seen yields => exact .seen yields
  | ended => exact .ended

section Lists

variable {item : Parse α} {test : Parse Bool} {one : α → List Kind → Prop}
  {stop : List Kind → Prop} {bound : Nat} {shape : α → β}

/-- An item is read as it was written where it stops, if it has no more tokens than the
    bound, and one at least. -/
structure Reads (item : Parse α) (one : α → List Kind → Prop) (stop : List Kind → Prop)
    (bound : Nat) (shape : α → β) : Prop where
  reads : ∀ {a own rest}, one a own → own.length ≤ bound → stop rest →
    item.Takes (own ++ rest) rest fun b => shape b = shape a
  pos : ∀ {a own}, one a own → 0 < own.length

/-- Items that follow one another are read one by one. The test tells an item from the end. -/
theorem Reads.whileM (each : Reads item one stop bound shape)
    (goes : ∀ {a own rest}, one a own → stop (own ++ rest) ∧
      test.Takes (own ++ rest) (own ++ rest) (· = true))
    (stops : test.Takes rest after (· = false)) (last : stop rest) {items : List α}
    (written : Spelling.Sequence one items kinds) (small : kinds.length ≤ bound) {fuel : Nat}
    (enough : kinds.length < fuel) :
    (Parser.whileM test item fuel).Takes (kinds ++ rest) after
      fun found => found.map shape = items.map shape := by
  induction written generalizing fuel with
  | nil =>
      obtain ⟨fuel, rfl⟩ : ∃ n, fuel = n + 1 := ⟨fuel - 1, by simp at enough; omega⟩
      apply stops.bind
      rintro _ rfl
      exact takes_pure rfl
  | @cons a others own later isOne written ih =>
      have pos := each.pos isOne
      rw [List.length_append] at small enough
      obtain ⟨fuel, rfl⟩ : ∃ n, fuel = n + 1 := ⟨fuel - 1, by omega⟩
      have next : stop (later ++ rest) := by
        cases written with
        | nil => exact last
        | cons isNext _ =>
            rw [List.append_assoc]
            exact (goes isNext).1
      rw [List.append_assoc]
      apply (goes isOne).2.bind
      rintro _ rfl
      apply (each.reads isOne (by omega) next).bind
      intro first same
      apply (ih (by omega) (by omega)).bind
      intro found sameOthers
      exact takes_pure (by rw [List.map_cons, List.map_cons, same, sameOthers])

theorem Reads.commaList (each : Reads item one stop bound shape)
    (commas : ∀ rest, stop (.punct .comma :: rest)) (last : stop rest)
    (noComma : front rest ≠ .punct .comma) {items : List α}
    (written : Spelling.Commas one items kinds) (small : kinds.length ≤ bound) {fuel : Nat}
    (enough : kinds.length ≤ fuel) :
    (Parser.commaList item fuel).Takes (kinds ++ rest) rest
      fun found => found.map shape = items.map shape := by
  induction written generalizing fuel with
  | @last a own isOne =>
      apply (each.reads isOne small last).bind
      intro first same
      have none : (Parser.whileM (Parser.accept .comma) item fuel).Takes rest rest (· = []) := by
        cases fuel with
        | zero => exact takes_pure rfl
        | succ fuel =>
            apply (takes_accept_not noComma).bind
            rintro _ rfl
            exact takes_pure rfl
      apply none.bind
      rintro _ rfl
      exact takes_pure (by rw [List.map_singleton, List.map_singleton, same])
  | @more a others own later isOne _ ih =>
      rw [List.length_append, List.length_cons] at small enough
      obtain ⟨fuel, rfl⟩ : ∃ n, fuel = n + 1 := ⟨fuel - 1, by omega⟩
      rw [List.append_assoc]
      apply (each.reads isOne (by omega) (commas _)).bind
      intro first same
      -- behind a comma a list is read as from its start
      have others : (Parser.whileM (Parser.accept .comma) item (fuel + 1)).Takes
          (.punct .comma :: (later ++ rest)) rest
          fun found => found.map shape = others.map shape := by
        apply takes_accept.bind
        rintro _ rfl
        exact ih (by omega) (by omega)
      apply others.bind
      intro found sameOthers
      exact takes_pure (by rw [List.map_cons, List.map_cons, same, sameOthers])

theorem Reads.parenList (each : Reads item one stop bound shape)
    (commas : ∀ rest, stop (.punct .comma :: rest))
    (last : ∀ rest, stop (.punct .closeParen :: rest))
    (noParen : ∀ {a own rest}, one a own → front (own ++ rest) ≠ .punct .closeParen)
    {items : List α} (written : Spelling.Parens one items kinds) (small : kinds.length ≤ bound)
    {fuel : Nat} (enough : kinds.length ≤ fuel) : ∃ inner, kinds = .punct .openParen :: inner ∧
      ∀ rest, (Parser.parenList item fuel).Takes (inner ++ rest) rest
        fun found => found.map shape = items.map shape := by
  cases written with
  | none =>
      refine ⟨_, rfl, fun rest => ?_⟩
      apply takes_accept.bind
      rintro _ rfl
      exact takes_pure rfl
  | @some _ own written =>
      refine ⟨own ++ [.punct .closeParen], rfl, fun rest => ?_⟩
      rw [List.length_append, List.length_cons] at small enough
      rw [List.append_assoc]
      have starts : front (own ++ ([.punct .closeParen] ++ rest)) ≠ .punct .closeParen := by
        cases written with
        | last isOne => exact noParen isOne
        | more isOne _ =>
            rw [List.append_assoc]
            exact noParen isOne
      apply (takes_accept_not starts).bind
      rintro _ rfl
      apply (each.commaList commas (last rest) nofun written (by omega) (by omega)).bind
      intro found same
      exact (takes_mark .closeParen).bind fun _ _ => takes_pure same

end Lists

end Parse

end Wordlang
