import Wordlang.Proofs.Reading
import Wordlang.Proofs.Scanning
import Wordlang.Tree.Taken

/-! # Following a grammar

What work on a parser does with the items ahead, whatever they are. It follows a grammar:
where it succeeds, the tokens that it took spell its result; where it refuses a token, the
tokens before that one are the beginning of a spelling. And it depends on nothing but the
kinds of the tokens up to the one at which it stops: where a text has tokens of the same kinds
up to there, other work, the same but for its fuel, does the same.

The grammar is carried through the work as a goal. Behind some tokens the goal of the rest of
the work is what completes these tokens to a spelling, and at the end nothing may be lacking.
-/

namespace Wordlang

open Token (Kind Writable kinds)

namespace Parser

/-- A parser stands before the items that it has yet to take. -/
inductive Before : Parser → List Item → Prop where
  | fresh {cursor : Cursor} {scanned : Array Token} {nextId : Nat} {items : List Item} :
      cursor.Scans items →
      Before { stream := { cursor, lookahead := none, scanned }, nextId } items
  | seen {cursor : Cursor} {scanned : Array Token} {nextId : Nat} {taken : List Token}
      {token : Token} {later : List Item} :
      scanned.toList = taken ++ [token] → cursor.line = token.line →
      (token.kind = .eof → later = []) → (token.kind ≠ .eof → cursor.Scans later) →
      Before { stream := { cursor, lookahead := some token, scanned }, nextId }
        (.ok token :: later)

/-- A parser stands before tokens of some kinds, and there is no error among them. -/
def Faces (parser : Parser) (ahead : List Kind) : Prop :=
  ∃ tokens : List Token, parser.Before (tokens.map .ok) ∧ kinds tokens = ahead

namespace Before

variable {s : Parser} {token : Token} {later : List Item}

theorem ne_nil (before : s.Before later) : later ≠ [] := by
  cases before with
  | fresh scans => exact scans.ne_nil
  | seen => exact List.cons_ne_nil _ _

theorem exists_cons (before : s.Before later) : ∃ next rest, later = next :: rest :=
  List.exists_cons_of_ne_nil before.ne_nil

/-- Ids do not matter to the place of a parser. -/
theorem withId (before : s.Before later) (nextId : Nat) : Before { s with nextId } later := by
  cases before with
  | fresh scans => exact .fresh scans
  | seen scanned line eof scans => exact .seen scanned line eof scans

theorem peek_stream (before : s.Before (.ok token :: later)) : ∃ cursor scanned,
    Stream.peek s.stream = .ok token { cursor, lookahead := some token, scanned } ∧
      cursor.line = token.line ∧ scanned.toList = s.done ++ [token] ∧
        (token.kind = .eof → later = []) ∧ (token.kind ≠ .eof → cursor.Scans later) := by
  cases before with
  | @seen cursor scanned _ taken _ _ all line eof scans =>
      exact ⟨cursor, scanned, rfl, line, by simp [done, all], eof, scans⟩
  | @fresh cursor scanned nextId _ scans =>
      have peeked : ∀ {after : Cursor}, cursor.scan = (.ok token, after) →
          Stream.peek { cursor, lookahead := none, scanned } =
            .ok token { cursor := after, lookahead := some token, scanned := scanned.push token } :=
        fun found => by simp only [Stream.peek, Stream.advance, found]
      have all : (scanned.push token).toList = scanned.toList ++ [token] := Array.toList_push
      cases scans with
      | last found isEof =>
          exact ⟨_, _, peeked found, (Cursor.scan_eq_ok found).2, all, fun _ => rfl,
            fun some => absurd isEof some⟩
      | more found some scans =>
          exact ⟨_, _, peeked found, (Cursor.scan_eq_ok found).2, all,
            fun isEof => absurd isEof some, fun _ => scans⟩

theorem peek_stream_error {error : CompileError} (before : s.Before (.error error :: later)) :
    later = [] ∧ ∃ cursor scanned,
      Stream.peek s.stream = .error error { cursor, lookahead := none, scanned } ∧
        scanned.toList = s.done := by
  cases before with
  | @fresh cursor scanned nextId _ scans =>
      cases scans with
      | @error _ after _ found =>
          refine ⟨rfl, after, scanned, ?_, rfl⟩
          simp only [Stream.peek, Stream.advance, found]

theorem peek (before : s.Before (.ok token :: later)) : ∃ s', Parser.peek s = .ok token s' ∧
    s'.Before (.ok token :: later) ∧ s'.done = s.done ∧ s'.nextId = s.nextId := by
  obtain ⟨cursor, scanned, peeked, line, all, eof, scans⟩ := before.peek_stream
  refine ⟨{ stream := { cursor, lookahead := some token, scanned }, nextId := s.nextId }, ?_,
    .seen all line eof scans, by simp [done, all], rfl⟩
  simp only [Parser.peek, onStream, peeked]

end Before

end Parser

namespace Stream

/-- Take the next token if something can be made of its kind; otherwise it stays. -/
def taking {α : Type} (makes : Kind → Option α) (expected : Expected) : Reading α := do
  let token ← peek
  match makes token.kind with
  | some a =>
      drop
      return a
  | none => refuse token.kind expected

theorem consume_eq_taking (wanted : Token.Class) : consume wanted =
    taking (fun kind => if kind.class_ = wanted then some () else none) (.token wanted) := by
  unfold consume taking
  congr 1
  funext token
  by_cases isWanted : token.kind.class_ = wanted
  · simp only [isWanted, if_true]
    rfl
  · simp only [isWanted, if_false]

theorem ident_eq_taking : ident =
    taking (fun | .ident name => some name | _ => none) (.token .ident) := by
  unfold ident taking
  congr 1
  funext token
  cases token.kind <;> rfl

theorem num_eq_taking : num =
    taking (fun | .num value => some value | _ => none) (.token .num) := by
  unfold num taking
  congr 1
  funext token
  cases token.kind <;> rfl

end Stream

namespace Parser.Before

variable {α : Type} {s : Parser} {token : Token} {later : List Item}

theorem next (before : s.Before (.ok token :: later)) (some : token.kind ≠ .eof) :
    ∃ s', Parser.next s = .ok token s' ∧ s'.Before later ∧ s'.done = s.done ++ [token] ∧
      s'.nextId = s.nextId := by
  obtain ⟨cursor, scanned, peeked, _, all, _, scans⟩ := before.peek_stream
  refine ⟨{ stream := { cursor, lookahead := none, scanned }, nextId := s.nextId }, ?_,
    .fresh (scans some), all, rfl⟩
  simp only [Parser.next, onStream, Stream.next, bind, EStateM.bind, peeked]
  rfl

theorem taking_some (before : s.Before (.ok token :: later)) (some : token.kind ≠ .eof)
    {makes : Kind → Option α} {a : α} (made : makes token.kind = .some a) (expected : Expected) :
    ∃ s', onStream (Stream.taking makes expected) s = .ok a s' ∧ s'.Before later ∧
      s'.done = s.done ++ [token] ∧ s'.nextId = s.nextId := by
  obtain ⟨cursor, scanned, peeked, _, all, _, scans⟩ := before.peek_stream
  refine ⟨{ stream := { cursor, lookahead := none, scanned }, nextId := s.nextId }, ?_,
    .fresh (scans some), all, rfl⟩
  simp only [onStream, Stream.taking, bind, EStateM.bind, peeked, made]
  rfl

theorem taking_none (before : s.Before (.ok token :: later))
    {makes : Kind → Option α} (none : makes token.kind = none) (expected : Expected) :
    ∃ s', onStream (Stream.taking makes expected) s =
        .error (.unexpected token.kind expected token.line) s' ∧ s'.done = s.done := by
  obtain ⟨cursor, scanned, peeked, line, all, _, _⟩ := before.peek_stream
  refine ⟨{ stream := { cursor, lookahead := some token, scanned }, nextId := s.nextId }, ?_,
    by simp [done, all]⟩
  simp only [onStream, Stream.taking, bind, EStateM.bind, peeked, none, Stream.refuse, Stream.line,
    line]

theorem taking_error {error : CompileError} (before : s.Before (.error error :: later))
    (makes : Kind → Option α) (expected : Expected) : later = [] ∧
      ∃ s', onStream (Stream.taking makes expected) s = .error error s' ∧ s'.done = s.done := by
  obtain ⟨rfl, cursor, scanned, peeked, all⟩ := before.peek_stream_error
  refine ⟨rfl, { stream := { cursor, lookahead := .none, scanned }, nextId := s.nextId }, ?_, all⟩
  simp only [onStream, Stream.taking, bind, EStateM.bind, peeked]

theorem peek_error {error : CompileError} (before : s.Before (.error error :: later)) :
    later = [] ∧ ∃ s', Parser.peek s = .error error s' ∧ s'.done = s.done := by
  obtain ⟨rfl, cursor, scanned, peeked, all⟩ := before.peek_stream_error
  refine ⟨rfl, { stream := { cursor, lookahead := .none, scanned }, nextId := s.nextId }, ?_, all⟩
  simp only [Parser.peek, onStream, peeked]

theorem unexpected (before : s.Before (.ok token :: later)) (wanted : Nonterminal) :
    ∃ s', (Parser.unexpected wanted : Parse α) s =
        .error (.unexpected token.kind (.part wanted) token.line) s' ∧ s'.done = s.done := by
  obtain ⟨cursor, scanned, peeked, line, all, _, _⟩ := before.peek_stream
  refine ⟨{ stream := { cursor, lookahead := some token, scanned }, nextId := s.nextId }, ?_,
    by simp [done, all]⟩
  have seen : Parser.peek s = .ok token
      { stream := { cursor, lookahead := some token, scanned }, nextId := s.nextId } := by
    simp only [Parser.peek, onStream, peeked]
  rw [Parser.unexpected, run_bind_of_ok seen]
  simp only [onStream, Stream.refuse, Stream.line, line]

end Parser.Before

namespace Parse

open Wordlang.Parser (Before Faces)

variable {α β γ δ : Type}

/-- How work ends that follows a grammar from a parser that stands before some items. Other
    work, if it has fuel for more tokens than were taken, echoes it where the tokens up to the
    first one that was not taken have the same kinds. -/
inductive Ends (other : Parse α) (bound : Nat) (one : α → List Kind → Prop) (shape : α → β)
    (s : Parser) (ahead : List Item) : EStateM.Result CompileError Parser α → Prop where
  | ok {a : α} {s' : Parser} (own : List Token) {next : Item} {rest : List Item} :
      ahead = own.map .ok ++ next :: rest → one a (kinds own) → s'.Before (next :: rest) →
      s'.done = s.done ++ own →
      (∀ {token : Token} {more : List Kind} {s₂ : Parser}, next = .ok token →
        own.length < bound → s₂.nextId = s.nextId → s₂.Faces (kinds own ++ token.kind :: more) →
          ∃ b s₂', other s₂ = .ok b s₂' ∧ shape b = shape a ∧ s₂'.nextId = s'.nextId ∧
            s₂'.Faces (token.kind :: more)) →
      Ends other bound one shape s ahead (.ok a s')
  /-- The tokens before the refused one can be completed. -/
  | refused {a : α} {s' : Parser} (own : List Token) {token : Token} {rest : List Item}
      {later : List Kind} {expected : Expected} :
      ahead = own.map .ok ++ .ok token :: rest → one a (kinds own ++ later) → Writable later →
      s'.done = s.done ++ own →
      (∀ {more : List Kind} {s₂ : Parser},
        own.length < bound → s₂.nextId = s.nextId → s₂.Faces (kinds own ++ token.kind :: more) →
          ∃ line s₂', other s₂ = .error (.unexpected token.kind expected line) s₂') →
      Ends other bound one shape s ahead (.error (.unexpected token.kind expected token.line) s')
  | broken {s' : Parser} (own : List Token) {error : CompileError} :
      ahead = own.map .ok ++ [.error error] → s'.done = s.done ++ own →
      Ends other bound one shape s ahead (.error error s')

/-- Wherever some items are ahead, `size` at most, work ends as it does when it follows a
    grammar. -/
def Runs (starts : List Item → Prop) (work other : Parse α) (size bound : Nat)
    (one : α → List Kind → Prop) (shape : α → β) : Prop :=
  ∀ s ahead, s.Before ahead → starts ahead → ahead.length ≤ size →
    Ends other bound one shape s ahead (work s)

/-- Work follows a grammar, by which something can be written. -/
structure Follows (work other : Parse α) (size bound : Nat) (one : α → List Kind → Prop)
    (shape : α → β) : Prop where
  some : ∃ a own, one a own ∧ Writable own
  runs : Runs (fun _ => True) work other size bound one shape

abbrev FollowsAt (kind : Kind) (work other : Parse α) (size bound : Nat)
    (one : α → List Kind → Prop) (shape : α → β) : Prop :=
  Runs (fun ahead => ∃ token later, ahead = .ok token :: later ∧ token.kind = kind)
    work other size bound one shape

section Rules

variable {starts : List Item → Prop} {work other : Parse α} {size bound : Nat}
  {one one' : α → List Kind → Prop} {shape : α → β} {s : Parser} {ahead : List Item}

theorem Ends.mono {bound' : Nat} {r : EStateM.Result CompileError Parser α}
    (ends : Ends other bound one shape s ahead r) (le : bound' ≤ bound)
    (imp : ∀ {a own}, one a own → one' a own) : Ends other bound' one' shape s ahead r := by
  cases ends with
  | ok own isAhead isOne before done echo =>
      exact .ok own isAhead (imp isOne) before done fun isNext few =>
        echo isNext (Nat.lt_of_lt_of_le few le)
  | refused own isAhead isOne writable done echo =>
      exact .refused own isAhead (imp isOne) writable done fun few =>
        echo (Nat.lt_of_lt_of_le few le)
  | broken own isAhead done => exact .broken own isAhead done

theorem Runs.mono {size' bound' : Nat} (runs : Runs starts work other size bound one shape)
    (small : size' ≤ size) (le : bound' ≤ bound) (imp : ∀ {a own}, one a own → one' a own) :
    Runs starts work other size' bound' one' shape :=
  fun s ahead before start short =>
    (runs s ahead before start (Nat.le_trans short small)).mono le imp

theorem Follows.mono {size' bound' : Nat} (follows : Follows work other size bound one shape)
    (small : size' ≤ size) (le : bound' ≤ bound) : Follows work other size' bound' one shape :=
  ⟨follows.some, follows.runs.mono small le id⟩

theorem Follows.imp (follows : Follows work other size bound one shape)
    (imp : ∀ {a own}, one a own → one' a own) : Follows work other size bound one' shape :=
  ⟨follows.some.imp fun _ => Exists.imp fun _ => And.imp_left imp,
    follows.runs.mono (Nat.le_refl _) (Nat.le_refl _) imp⟩

theorem Follows.at (follows : Follows work other size bound one shape) (kind : Kind) :
    FollowsAt kind work other size bound one shape :=
  fun s ahead before _ short => follows.runs s ahead before trivial short

/-- Where nothing is ahead, there is nothing to follow. -/
theorem Follows.zero (some : ∃ a own, one a own ∧ Writable own) :
    Follows work other 0 bound one shape := by
  refine ⟨some, fun _ _ before _ short => ?_⟩
  obtain ⟨next, rest, rfl⟩ := before.exists_cons
  exact absurd short (Nat.not_succ_le_zero _)

theorem Ends.unbounded {r : EStateM.Result CompileError Parser α}
    (ends : Ends other 0 one shape s ahead r) (other' : Parse α) :
    Ends other' 0 one shape s ahead r := by
  cases ends with
  | ok own isAhead isOne before done =>
      exact .ok own isAhead isOne before done fun _ few => absurd few (Nat.not_lt_zero _)
  | refused own isAhead isOne writable done =>
      exact .refused own isAhead isOne writable done fun few => absurd few (Nat.not_lt_zero _)
  | broken own isAhead done => exact .broken own isAhead done

theorem Follows.unbounded (follows : Follows work other size 0 one shape) (other' : Parse α) :
    Follows work other' size 0 one shape :=
  ⟨follows.some, fun s ahead before start short =>
    (follows.runs s ahead before start short).unbounded other'⟩

theorem follows_pure {a b : α} (same : shape b = shape a) (isOne : one a []) :
    Follows (pure a) (pure b) size bound one shape := by
  refine ⟨⟨a, [], isOne, .nil⟩, fun _ _ before _ _ => ?_⟩
  obtain ⟨next, rest, rfl⟩ := before.exists_cons
  refine .ok [] rfl isOne before (List.append_nil _).symm ?_
  intro token more s₂ _ _ sameId faces
  exact ⟨b, s₂, rfl, same, sameId, faces⟩

private theorem first_of_append {own : List Token} {token : Token} {next : Item}
    {rest rest' : List Item}
    (h : next :: rest = own.map .ok ++ .ok token :: rest') (more : List Kind) :
    ∃ first more', next = .ok first ∧ kinds own ++ token.kind :: more = first.kind :: more' := by
  cases own with
  | nil =>
      cases h
      exact ⟨token, more, rfl, rfl⟩
  | cons first own =>
      cases h
      exact ⟨first, kinds own ++ token.kind :: more, rfl, rfl⟩

theorem Ends.echo_ok {a : α} {s' : Parser} {own : List Token} {token : Token} {rest : List Item}
    (ends : Ends other bound one shape s ahead (.ok a s'))
    (isAhead : ahead = own.map .ok ++ .ok token :: rest) (done : s'.done = s.done ++ own)
    (few : own.length < bound) {more : List Kind} {s₂ : Parser} (sameId : s₂.nextId = s.nextId)
    (faces : s₂.Faces (kinds own ++ token.kind :: more)) :
    ∃ b s₂', other s₂ = .ok b s₂' ∧ shape b = shape a ∧ s₂'.nextId = s'.nextId ∧
      s₂'.Faces (token.kind :: more) := by
  cases ends with
  | ok _ isAhead' _ _ done' echo =>
      obtain rfl := List.append_cancel_left (done.symm.trans done')
      have isNext := List.append_cancel_left (isAhead'.symm.trans isAhead)
      exact echo (List.cons.inj isNext).1 few sameId faces

/-- What other work does where this one refused a token. -/
theorem Ends.echo_error {s' : Parser} {own : List Token} {token : Token} {rest : List Item}
    {error : CompileError} (ends : Ends other bound one shape s ahead (.error error s'))
    (isAhead : ahead = own.map .ok ++ .ok token :: rest) (done : s'.done = s.done ++ own)
    (few : own.length < bound) {more : List Kind} {s₂ : Parser} (sameId : s₂.nextId = s.nextId)
    (faces : s₂.Faces (kinds own ++ token.kind :: more)) :
    ∃ expected line s₂', error = .unexpected token.kind expected token.line ∧
      other s₂ = .error (.unexpected token.kind expected line) s₂' := by
  cases ends with
  | refused _ isAhead' _ _ done' echo =>
      obtain rfl := List.append_cancel_left (done.symm.trans done')
      cases List.append_cancel_left (isAhead'.symm.trans isAhead)
      obtain ⟨line, s₂', ran⟩ := echo few sameId faces
      exact ⟨_, line, s₂', rfl, ran⟩
  | broken _ isAhead' done' =>
      obtain rfl := List.append_cancel_left (done.symm.trans done')
      exact absurd (List.append_cancel_left (isAhead'.symm.trans isAhead)) nofun

/-- How two steps end of which the first one does not succeed. -/
theorem Ends.bind_error {goal : γ → List Kind → Prop} {shape' : γ → δ}
    {next' : α → Parse γ} {error : CompileError} {s₁ : Parser}
    (ends : Ends other bound one shape s ahead (.error error s₁))
    (some : ∀ {a own}, one a own → ∃ c later, goal c (own ++ later) ∧ Writable later) :
    Ends (other >>= next') bound goal shape' s ahead (.error error s₁) := by
  cases ends with
  | refused own isAhead isOne writable done echo =>
      obtain ⟨c, later', isGoal, writable'⟩ := some isOne
      rw [List.append_assoc] at isGoal
      refine .refused own isAhead isGoal (by simp [writable, writable']) done ?_
      intro more s₂ few sameId faces
      obtain ⟨line, s₂', ran⟩ := echo few sameId faces
      exact ⟨line, s₂', run_bind_of_error ran⟩
  | broken own isAhead done => exact .broken own isAhead done

/-- How two steps end of which the first one succeeds. Behind it other work has a result of the
    same shape, and the second step is followed for each such result. -/
theorem Ends.bind_ok {goal : γ → List Kind → Prop} {shape' : γ → δ} {next' : α → Parse γ}
    {a : α} (own : List Token) {s₁ : Parser} {item : Item} {rest : List Item}
    {r : EStateM.Result CompileError Parser γ}
    (first : Ends other bound one shape s ahead (.ok a s₁))
    (isAhead : ahead = own.map .ok ++ item :: rest) (done : s₁.done = s.done ++ own)
    (second : ∀ {b : α}, shape b = shape a → Ends (next' b) (bound - own.length)
      (fun c later => goal c (kinds own ++ later)) shape' s₁ (item :: rest) r) :
    Ends (other >>= next') bound goal shape' s ahead r := by
  -- other work reaches the second step where the tokens up to its end have the same kinds
  have reaches : ∀ {own₁ : List Token} {token : Token} {rest₁ : List Item} {more s₂},
      item :: rest = own₁.map .ok ++ .ok token :: rest₁ → (own ++ own₁).length < bound →
      s₂.nextId = s.nextId → s₂.Faces (kinds (own ++ own₁) ++ token.kind :: more) →
      own₁.length < bound - own.length ∧ ∃ b s₃, other s₂ = .ok b s₃ ∧ shape b = shape a ∧
        s₃.nextId = s₁.nextId ∧ s₃.Faces (kinds own₁ ++ token.kind :: more) := by
    intro own₁ token rest₁ more s₂ isNext few sameId faces
    obtain ⟨front, more', rfl, same⟩ := first_of_append isNext more
    rw [Token.kinds_append, List.append_assoc, same] at faces
    rw [List.length_append] at few
    rw [same]
    exact ⟨by omega, first.echo_ok isAhead done (by omega) sameId faces⟩
  have ends := second rfl
  cases ends with
  | @ok c s' own₁ item₁ rest₁ isNext isGoal before' done' _ =>
      refine .ok (own ++ own₁) (by simp [isAhead, isNext]) (by simpa using isGoal)
        before' (by rw [done', done, List.append_assoc]) ?_
      rintro token more s₂ rfl few sameId faces
      obtain ⟨few₁, b, s₃, ran, same, sameId₁, faces₁⟩ := reaches isNext few sameId faces
      obtain ⟨d, s₂', ran', echo⟩ := (second same).echo_ok isNext done' few₁ sameId₁ faces₁
      exact ⟨d, s₂', (run_bind_of_ok ran).trans ran', echo⟩
  | @refused c s' own₁ token rest₁ later expected isNext isGoal writable done' _ =>
      have isWhole : ahead = (own ++ own₁).map .ok ++ .ok token :: rest₁ := by
        simp [isAhead, isNext]
      refine .refused (own ++ own₁) isWhole (by simpa using isGoal) writable
        (by rw [done', done, List.append_assoc]) ?_
      intro more s₂ few sameId faces
      obtain ⟨few₁, b, s₃, ran, same, sameId₁, faces₁⟩ := reaches isNext few sameId faces
      obtain ⟨expected', line, s₂', isError, ran'⟩ :=
        (second same).echo_error isNext done' few₁ sameId₁ faces₁
      cases isError
      exact ⟨line, s₂', (run_bind_of_ok ran).trans ran'⟩
  | @broken s' own₁ _ isNext done' =>
      exact .broken (own ++ own₁) (by simp [isAhead, isNext])
        (by rw [done', done, List.append_assoc])

/-- One step after the other. The grammar of the second completes what the first one took. -/
theorem Runs.bind {goal : γ → List Kind → Prop} {shape' : γ → δ} {next next' : α → Parse γ}
    (first : Runs starts work other size bound one shape)
    (second : ∀ {a b : α} {own : List Kind}, shape b = shape a → one a own →
      Follows (next a) (next' b) (size - own.length) (bound - own.length)
        (fun c later => goal c (own ++ later)) shape') :
    Runs starts (work >>= next) (other >>= next') size bound goal shape' := by
  intro s ahead before start short
  have ends := first s ahead before start short
  cases worked : work s with
  | error error s₁ =>
      rw [run_bind_of_error worked]
      rw [worked] at ends
      exact ends.bind_error fun isOne => (second rfl isOne).some
  | ok a s₁ =>
      rw [run_bind_of_ok worked]
      rw [worked] at ends
      have ⟨own, item, rest, isAhead, isOne, before₁, done⟩ : ∃ own item rest,
          ahead = own.map .ok ++ item :: rest ∧ one a (kinds own) ∧ s₁.Before (item :: rest) ∧
            s₁.done = s.done ++ own := by
        cases ends with
        | ok _ isAhead isOne before₁ done => exact ⟨_, _, _, isAhead, isOne, before₁, done⟩
      have short₁ : (item :: rest).length ≤ size - (kinds own).length := by
        rw [isAhead, List.length_append, List.length_map] at short
        rw [Token.length_kinds]
        omega
      apply ends.bind_ok own isAhead done
      intro b same
      rw [← Token.length_kinds own]
      exact (second same isOne).runs s₁ _ before₁ trivial short₁

theorem Follows.bind {goal : γ → List Kind → Prop} {shape' : γ → δ} {next next' : α → Parse γ}
    (first : Follows work other size bound one shape)
    (second : ∀ {a b : α} {own : List Kind}, shape b = shape a → one a own →
      Follows (next a) (next' b) (size - own.length) (bound - own.length)
        (fun c later => goal c (own ++ later)) shape') :
    Follows (work >>= next) (other >>= next') size bound goal shape' := by
  refine ⟨?_, first.runs.bind second⟩
  obtain ⟨a, own, isOne, writable⟩ := first.some
  obtain ⟨c, later, isGoal, writable'⟩ := (second rfl isOne).some
  exact ⟨c, own ++ later, isGoal, by simp [writable, writable']⟩

theorem Follows.then {goal : γ → List Kind → Prop} {shape' : γ → δ} {next next' : α → Parse γ}
    (first : Follows work other size bound one id)
    (second : ∀ (a : α) (own : List Kind), one a own →
      Follows (next a) (next' a) (size - own.length) (bound - own.length)
        (fun c later => goal c (own ++ later)) shape') :
    Follows (work >>= next) (other >>= next') size bound goal shape' := by
  apply first.bind
  intro a b own same isOne
  obtain rfl : b = a := same
  exact second b own isOne

end Rules

end Parse

end Wordlang
