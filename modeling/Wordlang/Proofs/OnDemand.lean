import Wordlang.Token.Operation
import Wordlang.Proofs.Scanning

/-! # Reading on demand

A stream scans a token when it is first looked at, keeps it until it is taken, and drops what
is wrong at once. None of this can be told from outside: every sequence of operations is
answered as if all items of the text had been there from the beginning.
-/

namespace Wordlang

open Token (Kind)
open Wordlang.Stream (Op Answer Reply)

namespace Cursor

variable {cursor : Cursor} {token : Token} {later : List Item}

theorem scan_of_items_ok (items : cursor.items = .ok token :: later) :
    ∃ after, cursor.scan = (.ok token, after) ∧ after.line = token.line ∧
      (token.kind = .eof → later = []) ∧ (token.kind ≠ .eof → later = after.items) := by
  cases scanned : cursor.scan with
  | mk item after =>
      cases item with
      | error error =>
          rw [items_of_error scanned] at items
          cases items
      | ok found =>
          by_cases isEof : found.kind = .eof
          · rw [items_of_eof scanned isEof] at items
            cases items
            exact ⟨after, rfl, (scan_eq_ok scanned).2, fun _ => rfl, fun some => absurd isEof some⟩
          · rw [items_of_ok scanned isEof] at items
            cases items
            exact ⟨after, rfl, (scan_eq_ok scanned).2, fun eof => absurd eof isEof, fun _ => rfl⟩

theorem scan_of_items_error {error : CompileError} (items : cursor.items = .error error :: later) :
    ∃ after, cursor.scan = (.error error, after) ∧ after.line = error.line ∧
      later = after.items := by
  cases scanned : cursor.scan with
  | mk item after =>
      cases item with
      | error found =>
          rw [items_of_error scanned] at items
          cases items
          obtain ⟨character, rfl⟩ := scan_eq_error scanned
          exact ⟨after, rfl, rfl, rfl⟩
      | ok found =>
          by_cases isEof : found.kind = .eof
          · rw [items_of_eof scanned isEof] at items
            cases items
          · rw [items_of_ok scanned isEof] at items
            cases items

/-- The items are the end of the text, or one item and those behind it. -/
theorem items_cases (cursor : Cursor) :
    (∃ last, last.kind = .eof ∧ cursor.items = [.ok last]) ∨
      ∃ (item : Item) (after : Cursor), after.rest.length < cursor.rest.length ∧
        cursor.items = item :: after.items ∧ Item.isEnd item = false ∧
        ∀ error, item = .error error → ∃ character line, error = .badCharacter character line := by
  cases scanned : cursor.scan with
  | mk item after =>
      cases item with
      | error error =>
          obtain ⟨character, rfl⟩ := scan_eq_error scanned
          refine .inr ⟨_, after, length_scan_error_lt scanned, items_of_error scanned, rfl, ?_⟩
          rintro _ ⟨⟩
          exact ⟨character, after.line, rfl⟩
      | ok token =>
          by_cases isEof : token.kind = .eof
          · exact .inl ⟨token, isEof, items_of_eof scanned isEof⟩
          · exact .inr ⟨_, after, length_scan_lt scanned isEof, items_of_ok scanned isEof,
              decide_eq_false isEof, fun _ wrong => by cases wrong⟩

/-- The items of a text end with its only end. -/
theorem items_end (cursor : Cursor) : ∃ before last, cursor.items = before ++ [.ok last] ∧
    last.kind = .eof ∧ ∀ item ∈ before, Item.isEnd item = false := by
  rcases cursor.items_cases with ⟨last, isEof, items⟩ | ⟨item, after, shorter, items, noEnd, -⟩
  · exact ⟨[], last, items, isEof, List.forall_mem_nil _⟩
  · obtain ⟨before, last, others, isEof, noEnds⟩ := items_end after
    refine ⟨item :: before, last, ?_, isEof, List.forall_mem_cons.mpr ⟨noEnd, noEnds⟩⟩
    rw [items, others, List.cons_append]
termination_by cursor.rest.length

theorem items_errors {cursor : Cursor} {error : CompileError} (mem : .error error ∈ cursor.items) :
    ∃ character line, error = .badCharacter character line := by
  rcases cursor.items_cases with ⟨last, -, items⟩ | ⟨item, after, shorter, items, -, isBad⟩
  · rw [items] at mem
    exact absurd (List.mem_singleton.mp mem) nofun
  · rw [items] at mem
    rcases List.mem_cons.mp mem with isFirst | isLater
    · exact isBad error isFirst.symm
    · exact items_errors isLater
termination_by cursor.rest.length

end Cursor

namespace Item

/-- The items that come next once an item has been moved past, or not. -/
def after (moves : Bool) (item : Item) (later : List Item) : List Item :=
  if moves && !isEnd item then later else item :: later

end Item

namespace Stream

/-- A stream shows the items that have not been passed. They are yet to be scanned, but for the
    token in view. -/
inductive Shows : Stream → List Item → Prop where
  | fresh {cursor : Cursor} {scanned : Array Token} {items : List Item} :
      cursor.items = items → Shows { cursor, lookahead := none, scanned } items
  | seen {cursor : Cursor} {token : Token} {scanned : Array Token} {later : List Item} :
      cursor.line = token.line →
      (token.kind = .eof → cursor.rest = [] ∧ later = []) →
      (token.kind ≠ .eof → cursor.items = later) →
      Shows { cursor, lookahead := some token, scanned } (.ok token :: later)

variable {stream stream' : Stream} {item : Item} {token : Token} {later : List Item}

/-- Looking at a token brings it into view. -/
theorem Shows.peek_ok (shows_ : stream.Shows (.ok token :: later)) :
    ∃ stream', peek stream = .ok token stream' ∧ stream'.lookahead = some token ∧
      stream'.line = token.line ∧ stream'.Shows (.ok token :: later) := by
  cases shows_ with
  | @fresh cursor scanned _ items =>
      obtain ⟨after, found, line, eof, more⟩ := Cursor.scan_of_items_ok items
      have peeked : peek { cursor, lookahead := none, scanned } =
          .ok token
            { cursor := after, lookahead := some token, scanned := scanned.push token } := by
        simp only [peek, advance, found]
      refine ⟨_, peeked, rfl, line, .seen line (fun isEof => ⟨?_, eof isEof⟩)
        fun some => (more some).symm⟩
      rw [Cursor.scan_eq_eof found isEof]
  | seen line eof more => exact ⟨_, rfl, rfl, line, .seen line eof more⟩

theorem Shows.peek_error {error : CompileError} (shows_ : stream.Shows (.error error :: later)) :
    ∃ stream', peek stream = .error error stream' ∧ stream'.line = error.line ∧
      stream'.Shows later := by
  cases shows_ with
  | @fresh cursor scanned _ items =>
      obtain ⟨after, found, line, rest⟩ := Cursor.scan_of_items_error items
      have peeked : peek { cursor, lookahead := none, scanned } =
          .error error { cursor := after, lookahead := none, scanned } := by
        simp only [peek, advance, found]
      exact ⟨_, peeked, line, .fresh rest.symm⟩

/-- Dropping the token in view passes it, unless it is the end of the text, which is scanned
    again. -/
theorem Shows.drop (shows_ : stream.Shows (.ok token :: later))
    (inView : stream.lookahead = some token) :
    ∃ stream', Stream.drop stream = .ok () stream' ∧ stream'.line = stream.line ∧
      stream'.Shows (Item.after true (.ok token) later) := by
  cases shows_ with
  | fresh => cases inView
  | @seen cursor _ scanned _ line eof more =>
      refine ⟨{ cursor, lookahead := none, scanned }, rfl, rfl, ?_⟩
      by_cases isEof : token.kind = .eof
      · obtain ⟨noText, rfl⟩ := eof isEof
        have again : cursor.items = [.ok token] := by
          obtain ⟨kind, _⟩ := token
          obtain ⟨_, _⟩ := cursor
          obtain rfl : kind = .eof := isEof
          obtain rfl := noText
          obtain rfl := line
          rfl
        simpa [Item.after, Item.isEnd, isEof] using Shows.fresh again
      · simpa [Item.after, Item.isEnd, isEof] using Shows.fresh (more isEof)

private theorem outcome_of_error {op : Op} {error : CompileError}
    (ran : op.run stream = .error error stream') : op.outcome stream = (.error error, stream') := by
  rw [Op.outcome, ran]

private theorem run_of_peek_error {error : CompileError}
    (peeked : peek stream = .error error stream')
    (op : Op) : op.run stream = .error error stream' := by
  cases op <;>
    simp only [Op.run, next, consume, ident, num, Functor.map, EStateM.map, bind, EStateM.bind,
      peeked]

private theorem run_of_peek_ok {dropped : Stream} (peeked : peek stream = .ok token stream')
    (line : stream'.line = token.line) (drops : Stream.drop stream' = .ok () dropped) (op : Op) :
    op.outcome stream = ((Item.answer op (.ok token)).1,
      if (Item.answer op (.ok token)).2 then dropped else stream') := by
  have refused : ∀ {α : Type} (found : Kind) (expected : Expected),
      refuse found expected stream' =
        (.error (.unexpected found expected token.line) stream' :
          EStateM.Result CompileError Stream α) := by
    intro α found expected
    rw [refuse, line]
  cases op with
  | peek => simp only [Op.outcome, Op.run, Functor.map, EStateM.map, peeked, Item.answer,
      Bool.false_eq_true, if_false]
  | next => simp only [Op.outcome, Op.run, next, Functor.map, EStateM.map, bind, EStateM.bind,
      peeked, drops, pure, EStateM.pure, Item.answer, if_true]
  | consume wanted =>
      by_cases same : token.kind.class_ = wanted
      · simp only [Op.outcome, Op.run, consume, Functor.map, EStateM.map, bind, EStateM.bind,
          peeked, same, if_true, drops, Item.answer]
      · simp only [Op.outcome, Op.run, consume, Functor.map, EStateM.map, bind, EStateM.bind,
          peeked, same, if_false, refused, Item.answer, Item.refusal, Bool.false_eq_true]
  | ident =>
      cases kind : token.kind <;>
        simp [Op.outcome, Op.run, ident, Functor.map, EStateM.map, bind, EStateM.bind,
          pure, EStateM.pure, peeked, kind, drops, refused, Item.answer, Item.refusal]
  | num =>
      cases kind : token.kind <;>
        simp [Op.outcome, Op.run, num, Functor.map, EStateM.map, bind, EStateM.bind,
          pure, EStateM.pure, peeked, kind, drops, refused, Item.answer, Item.refusal]

/-- One operation answers as it does on the list of items, and leaves the stream at the place
    where it leaves the list. -/
theorem Shows.step (shows_ : stream.Shows (item :: later)) (op : Op) :
    ∃ stream', op.outcome stream = ((Item.answer op item).1, stream') ∧
      stream'.line = Item.line item ∧
      stream'.Shows (Item.after (Item.answer op item).2 item later) := by
  cases item with
  | error error =>
      obtain ⟨stream', peeked, line, shows'⟩ := shows_.peek_error
      have answer : Item.answer op (.error error) = (.error error, true) := by cases op <;> rfl
      rw [answer]
      exact ⟨stream', outcome_of_error (run_of_peek_error peeked op), line, shows'⟩
  | ok token =>
      obtain ⟨stream', peeked, inView, line, shows'⟩ := shows_.peek_ok
      obtain ⟨dropped, drops, lineDropped, showsDropped⟩ := shows'.drop inView
      refine ⟨_, run_of_peek_ok peeked line drops op, ?_⟩
      cases (Item.answer op (.ok token)).2 with
      | true => exact ⟨lineDropped.trans line, showsDropped⟩
      | false => exact ⟨line, shows'⟩

end Stream

theorem Cursor.items_ne_nil (cursor : Cursor) : cursor.items ≠ [] := by
  rcases cursor.items_cases with ⟨last, -, items⟩ | ⟨item, after, -, items, -⟩ <;>
    exact items ▸ List.cons_ne_nil _ _

theorem Stream.Shows.ne_nil {stream : Stream} {items : List Item} (shows_ : stream.Shows items) :
    items ≠ [] := by
  cases shows_ with
  | @fresh cursor _ _ same => exact same ▸ cursor.items_ne_nil
  | seen => exact List.cons_ne_nil _ _

namespace Item.Place

variable {items later : List Item} {item : Item} {place : Place}

def behind (place : Place) (op : Op) (item : Item) : Place where
  next := if (answer op item).2 && !isEnd item then place.next + 1 else place.next
  seen := place.next

/-- An operation on a list of items looks at the item that comes next, and no item further on
    was looked at before. -/
theorem step_eq (rest : items.drop place.next = item :: later) (seen : place.seen ≤ place.next)
    (op : Op) : place.step items op =
      some ({ answer := (answer op item).1, line := Item.line item }, place.behind op item) := by
  have here : items[place.next]? = some item := by
    rw [← List.head?_drop, rest, List.head?_cons]
  simp only [step, Nat.max_eq_right seen, here, Option.bind_eq_bind, Option.bind_some,
    Option.pure_def, behind]

private theorem drop_behind (rest : items.drop place.next = item :: later) (op : Op) :
    items.drop (place.behind op item).next = Item.after (answer op item).2 item later := by
  rw [behind, Item.after]
  dsimp only
  split
  · rw [← List.drop_drop, rest, List.drop_one, List.tail_cons]
  · exact rest

theorem seen_behind (place : Place) (op : Op) (item : Item) :
    (place.behind op item).seen ≤ (place.behind op item).next := by
  rw [behind]
  dsimp only
  split <;> omega

/-- A stream answers like a list of items as long as it shows what the list holds from its place
    on: every operation keeps them together. -/
theorem replies_eq {stream : Stream} (shows_ : stream.Shows (items.drop place.next))
    (seen : place.seen ≤ place.next) (ops : List Op) :
    replies items ops place = some (stream.replies ops) := by
  induction ops generalizing stream place with
  | nil => rfl
  | cons op ops ih =>
      obtain ⟨item, later, rest⟩ := List.exists_cons_of_ne_nil shows_.ne_nil
      obtain ⟨stream', outcome, line, shows'⟩ := (rest ▸ shows_).step op
      rw [← drop_behind rest op] at shows'
      have more := ih shows' (place.seen_behind op item)
      simp only [replies, step_eq rest seen, Stream.replies, outcome, line, more,
        Option.bind_eq_bind, Option.bind_some, Option.pure_def]

end Item.Place

/-- Whatever is asked of a stream over a text, in whatever order, is answered as by a place in the
    list of all items of the text. The list does not depend on what is asked. It ends with its
    only end, and its errors are about characters. -/
theorem replies_of_text (text : String) :
    (∃ before last, (Cursor.start text).items = before ++ [.ok last] ∧ last.kind = .eof ∧
      ∀ item ∈ before, Item.isEnd item = false) ∧
    (∀ error, .error error ∈ (Cursor.start text).items →
      ∃ character line, error = .badCharacter character line) ∧
    ∀ ops, Item.Place.replies (Cursor.start text).items ops {} =
      some ((Stream.ofText text).replies ops) := by
  have shows_ : (Stream.ofText text).Shows ((Cursor.start text).items.drop 0) :=
    .fresh (List.drop_zero).symm
  exact ⟨Cursor.items_end _, fun _ => Cursor.items_errors,
    fun ops => Item.Place.replies_eq shows_ (Nat.le_refl 0) ops⟩

end Wordlang
