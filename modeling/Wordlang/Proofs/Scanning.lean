import Wordlang.Token.Item
import Wordlang.Proofs.Spelling

/-! # Scanning to the end

What scanning finds from a cursor on: tokens up to the end of the text, or up to the first
error. These are the items of which the tokens of a text are made, and every token among
them can be written again.
-/

namespace Wordlang

open Token (Kind)

namespace Lexeme

theorem writable_ofMark {c : Char} {kind : Kind} (h : ofMark c = .ok kind) : kind.Writable := by
  unfold ofMark at h
  split at h
  · obtain rfl := Except.ok.inj h
    exact trivial
  · exact absurd h nofun

private theorem writable_readMark {c : Char} {later rest : List Char} {kind : Kind}
    (h : readMark c later = (.ok kind, rest)) : kind.Writable := by
  unfold readMark at h
  split at h
  · exact writable_ofMark (Prod.mk.inj h).1
  · split at h
    · obtain rfl := Except.ok.inj (Prod.mk.inj h).1
      exact trivial
    · exact writable_ofMark (Prod.mk.inj h).1

private theorem writable_ofDigits {digits : List Char} {kind : Kind}
    (h : ofDigits digits = .ok kind) :
    kind.Writable := by
  unfold ofDigits at h
  split at h
  · cases h
  · dsimp only at h
    split at h
    · next small =>
      obtain rfl := Except.ok.inj h
      exact small
    · cases h

private theorem writable_ofWord {c : Char} (start : isNameStart c = true) (later : List Char) :
    (ofWord (String.ofList ((c :: later).takeWhile isNamePart))).Writable := by
  have word : (c :: later).takeWhile isNamePart = c :: later.takeWhile isNamePart :=
    List.takeWhile_cons_of_pos (isNamePart_of_isNameStart start)
  rw [word, ofWord]
  split
  · exact trivial
  · next noKeyword =>
    have parts : (later.takeWhile isNamePart).all isNamePart = true := List.all_takeWhile
    exact ⟨⟨c, _, String.toList_ofList, start, parts⟩, noKeyword⟩

theorem writable_read_cons {c : Char} {later rest : List Char} {kind : Kind}
    (h : read (c :: later) = (.ok kind, rest)) : kind.Writable := by
  simp only [read] at h
  split at h
  · exact writable_ofDigits (Prod.mk.inj h).1
  · split at h
    · next start =>
      obtain rfl := Except.ok.inj (Prod.mk.inj h).1
      exact writable_ofWord start later
    · exact writable_readMark h

/-- What is read can be written, but for the end of the text. -/
theorem writable_read {text rest : List Char} {kind : Kind} (h : read text = (.ok kind, rest))
    (some : kind ≠ .eof) : kind.Writable := by
  cases text with
  | nil => exact absurd (Except.ok.inj (Prod.mk.inj h).1).symm some
  | cons c later => exact writable_read_cons h

end Lexeme

namespace Cursor

variable {cursor after : Cursor} {token : Token}

/-- A scan reads behind the blanks, on the line on which they end. -/
theorem scan_eq_ok (h : cursor.scan = (.ok token, after)) :
    Lexeme.read cursor.skipBlanks.rest = (.ok token.kind, after.rest) ∧
      after.line = token.line := by
  cases read : Lexeme.read cursor.skipBlanks.rest with
  | mk lexeme rest =>
      simp only [scan, read] at h
      cases lexeme with
      | error => cases h
      | ok kind =>
          obtain ⟨found, rfl⟩ := Prod.mk.inj h
          obtain rfl := Except.ok.inj found
          exact ⟨rfl, rfl⟩

/-- What is wrong with a character is told on the line on which it stands. -/
theorem scan_eq_error {error : CompileError} (h : cursor.scan = (.error error, after)) :
    ∃ character, error = .badCharacter character after.line := by
  simp only [scan] at h
  split at h
  · cases h
  · obtain ⟨found, rfl⟩ := Prod.mk.inj h
    exact ⟨_, (Except.error.inj found).symm⟩

theorem scan_cases {item : Item} (h : cursor.scan = (item, after)) :
    after.rest.length < cursor.rest.length ∨
      ∃ line, item = .ok { kind := .eof, line } ∧ after = { rest := [], line } := by
  have blanks : cursor.skipBlanks.rest.length ≤ cursor.rest.length := length_pastBlanks_le _ _
  cases text : cursor.skipBlanks.rest with
  | nil =>
      simp only [scan, text, Lexeme.read] at h
      obtain ⟨rfl, rfl⟩ := Prod.mk.inj h
      exact .inr ⟨_, rfl, rfl⟩
  | cons c rest =>
      obtain ⟨-, rfl⟩ := Prod.mk.inj h
      have shorter := Lexeme.length_read_lt c rest
      rw [← text] at shorter
      exact .inl (Nat.lt_of_lt_of_le shorter blanks)

/-- A token takes at least one character. -/
theorem length_scan_lt (h : cursor.scan = (.ok token, after)) (some : token.kind ≠ .eof) :
    after.rest.length < cursor.rest.length := by
  rcases scan_cases h with shorter | ⟨line, isEof, -⟩
  · exact shorter
  · obtain rfl := Except.ok.inj isEof
    exact absurd rfl some

/-- An error takes at least one character. -/
theorem length_scan_error_lt {error : CompileError} (h : cursor.scan = (.error error, after)) :
    after.rest.length < cursor.rest.length := by
  rcases scan_cases h with shorter | ⟨line, isEof, -⟩
  · exact shorter
  · cases isEof

/-- At the end of the text scanning stays. -/
theorem scan_eq_eof (h : cursor.scan = (.ok token, after)) (isEof : token.kind = .eof) :
    after = { rest := [], line := token.line } := by
  obtain ⟨read, line⟩ := scan_eq_ok h
  cases text : cursor.skipBlanks.rest with
  | nil =>
      rw [text] at read
      obtain ⟨rest, line'⟩ := after
      obtain rfl : [] = rest := (Prod.mk.inj read).2
      obtain rfl : line' = token.line := line
      rfl
  | cons c rest =>
      rw [text, isEof] at read
      exact absurd (Lexeme.writable_read_cons read) id

theorem itemsWithin_eq_items {fuel : Nat} (enough : cursor.rest.length < fuel) :
    cursor.itemsWithin fuel = cursor.items := by
  have agree : ∀ fuel other (cursor : Cursor), cursor.rest.length < fuel →
      cursor.rest.length < other → cursor.itemsWithin fuel = cursor.itemsWithin other := by
    intro fuel
    induction fuel with
    | zero => intro _ _ none; exact absurd none (Nat.not_lt_zero _)
    | succ fuel ih =>
        intro other cursor enough enoughToo
        obtain ⟨other, rfl⟩ :=
          Nat.exists_eq_succ_of_ne_zero (Nat.ne_of_gt (Nat.zero_lt_of_lt enoughToo))
        cases scanned : cursor.scan with
        | mk item after =>
            cases item with
            | error error =>
                have shorter := length_scan_error_lt scanned
                simp only [itemsWithin, scanned]
                rw [ih other after (by omega) (by omega)]
            | ok token =>
                by_cases isEof : token.kind = .eof
                · simp only [itemsWithin, scanned, isEof, if_true]
                · have shorter := length_scan_lt scanned isEof
                  simp only [itemsWithin, scanned, isEof, if_false]
                  rw [ih other after (by omega) (by omega)]
  exact agree fuel _ cursor enough (Nat.lt_succ_self _)

/-- The end of the text is the last item. -/
theorem items_of_eof (scanned : cursor.scan = (.ok token, after)) (isEof : token.kind = .eof) :
    cursor.items = [.ok token] := by
  simp only [items, itemsWithin, scanned, isEof, if_true]

theorem items_of_ok (scanned : cursor.scan = (.ok token, after)) (some : token.kind ≠ .eof) :
    cursor.items = .ok token :: after.items := by
  have shorter := length_scan_lt scanned some
  rw [items, itemsWithin]
  simp only [scanned, some, if_false]
  rw [itemsWithin_eq_items shorter]

/-- Behind an error scanning goes on. -/
theorem items_of_error {error : CompileError} (scanned : cursor.scan = (.error error, after)) :
    cursor.items = .error error :: after.items := by
  have shorter := length_scan_error_lt scanned
  rw [items, itemsWithin]
  simp only [scanned]
  rw [itemsWithin_eq_items shorter]

/-- Scanning from a cursor finds tokens up to the end of the text, or up to an error. -/
inductive Scans : Cursor → List Item → Prop where
  | last {cursor after : Cursor} {token : Token} :
      cursor.scan = (.ok token, after) → token.kind = .eof → Scans cursor [.ok token]
  | error {cursor after : Cursor} {error : CompileError} :
      cursor.scan = (.error error, after) → Scans cursor [.error error]
  | more {cursor after : Cursor} {token : Token} {items : List Item} :
      cursor.scan = (.ok token, after) → token.kind ≠ .eof → Scans after items →
      Scans cursor (.ok token :: items)

theorem exists_scans (cursor : Cursor) : ∃ items, cursor.Scans items := by
  cases scanned : cursor.scan with
  | mk item after =>
      cases item with
      | error error => exact ⟨_, .error scanned⟩
      | ok token =>
          by_cases last : token.kind = .eof
          · exact ⟨_, .last scanned last⟩
          · have shorter := length_scan_lt scanned last
            obtain ⟨items, scans⟩ := exists_scans after
            exact ⟨_, .more scanned last scans⟩
termination_by cursor.rest.length

namespace Scans

variable {items : List Item}

theorem ne_nil (scans : cursor.Scans items) : items ≠ [] := by
  cases scans <;> exact List.cons_ne_nil _ _

theorem length_le (scans : cursor.Scans items) : items.length ≤ cursor.rest.length + 1 := by
  induction scans with
  | last | error => exact Nat.succ_le_succ (Nat.zero_le _)
  | more scanned some _ ih =>
      have shorter := length_scan_lt scanned some
      rw [List.length_cons]
      omega

theorem writable (scans : cursor.Scans items) :
    ∀ token, .ok token ∈ items → token.kind ≠ .eof → token.kind.Writable := by
  have own : ∀ {cursor after : Cursor} {token : Token}, cursor.scan = (.ok token, after) →
      token.kind ≠ .eof → token.kind.Writable :=
    fun scanned some => Lexeme.writable_read (scan_eq_ok scanned).1 some
  induction scans with
  | last scanned =>
      intro token mem some
      obtain rfl := Except.ok.inj (List.mem_singleton.mp mem)
      exact own scanned some
  | error scanned =>
      intro token mem
      exact absurd (List.mem_singleton.mp mem) nofun
  | more scanned _ _ ih =>
      intro token mem some
      rcases List.mem_cons.mp mem with isFirst | later
      · obtain rfl := Except.ok.inj isFirst
        exact own scanned some
      · exact ih token later some

theorem tokens_items (scans : cursor.Scans items) :
    Item.tokens cursor.items = Item.tokens items := by
  induction scans with
  | last scanned isEof => rw [items_of_eof scanned isEof]
  | error scanned => rw [items_of_error scanned, Item.tokens, Item.tokens]
  | more scanned some _ ih => rw [items_of_ok scanned some, Item.tokens, Item.tokens, ih]

end Scans

end Cursor

theorem tokenize_of_scans {text : String} {items : List Item}
    (scans : (Cursor.start text).Scans items) : tokenize text = Item.tokens items :=
  scans.tokens_items

theorem Item.tokens_eq_ok {items : List Item} {tokens : List Token} :
    Item.tokens items = .ok tokens ↔ items = tokens.map .ok := by
  induction items generalizing tokens with
  | nil => cases tokens <;> simp [Item.tokens]
  | cons item rest ih =>
      cases item with
      | error error => cases tokens <;> simp [Item.tokens]
      | ok token =>
          cases later : Item.tokens rest with
          | error error =>
              have none : ∀ tokens : List Token, rest ≠ tokens.map .ok := by
                intro tokens same
                rw [ih.mpr same] at later
                exact absurd later nofun
              cases tokens <;> simp [Item.tokens, later, Except.map, none]
          | ok found =>
              obtain rfl := ih.mp later
              cases tokens with
              | nil => simp [Item.tokens, later, Except.map]
              | cons first others => simp [Item.tokens, later, Except.map, ← ih]

theorem Item.tokens_eq_error {items : List Item} {error : CompileError} :
    Item.tokens items = .error error ↔
      ∃ (tokens : List Token) (rest : List Item),
        items = tokens.map .ok ++ .error error :: rest := by
  induction items with
  | nil => simp [Item.tokens]
  | cons item rest ih =>
      cases item with
      | error other =>
          constructor
          · rintro ⟨⟩
            exact ⟨[], rest, rfl⟩
          · rintro ⟨tokens, others, same⟩
            cases tokens with
            | nil =>
                cases same
                rfl
            | cons => cases same
      | ok token =>
          constructor
          · intro failed
            cases later : Item.tokens rest with
            | ok => simp [Item.tokens, later, Except.map] at failed
            | error found =>
                simp only [Item.tokens, later, Except.map, Except.error.injEq] at failed
                obtain ⟨tokens, others, rfl⟩ := ih.mp (failed ▸ later)
                exact ⟨token :: tokens, others, rfl⟩
          · rintro ⟨tokens, others, same⟩
            cases tokens with
            | nil => cases same
            | cons first more =>
                have later := ih.mpr ⟨more, others, (List.cons.inj same).2⟩
                rw [Item.tokens, later]
                rfl

/-- A text without errors is scanned as its tokens. -/
theorem tokenize_eq_ok {text : String} {tokens : List Token} :
    tokenize text = .ok tokens ↔ (Cursor.start text).Scans (tokens.map .ok) := by
  obtain ⟨items, scans⟩ := (Cursor.start text).exists_scans
  constructor
  · intro clean
    rw [tokenize_of_scans scans, Item.tokens_eq_ok] at clean
    exact clean ▸ scans
  · intro scans
    rw [tokenize_of_scans scans, Item.tokens_eq_ok]

namespace Cursor

/-- A cursor that yields some tokens is scanned as tokens of these kinds and the end. -/
theorem Yields.scans {cursor : Cursor} {kinds : List Kind} (yields : cursor.Yields kinds) :
    ∃ tokens : List Token, cursor.Scans (tokens.map .ok) ∧
      Token.kinds tokens = kinds ++ [.eof] := by
  induction yields with
  | @nil _ _ line scanned => exact ⟨[{ kind := .eof, line }], .last scanned rfl, rfl⟩
  | @cons _ _ line kind _ scanned some _ ih =>
      obtain ⟨tokens, scans, same⟩ := ih
      exact ⟨{ kind, line } :: tokens, .more scanned some scans, by simp [same]⟩

theorem Scans.yields {cursor : Cursor} {items : List Item} (scans : cursor.Scans items)
    {tokens : List Token} (clean : items = tokens.map .ok) :
    ∃ kinds, cursor.Yields kinds ∧ Token.kinds tokens = kinds ++ [.eof] := by
  induction scans generalizing tokens with
  | @last _ _ token scanned isEof =>
      obtain ⟨⟨kind, line⟩, rfl, same⟩ := List.map_eq_singleton_iff.mp clean.symm
      cases same
      obtain rfl : kind = .eof := isEof
      exact ⟨[], .nil scanned, rfl⟩
  | error _ =>
      obtain ⟨_, _, same⟩ := List.map_eq_singleton_iff.mp clean.symm
      exact absurd same nofun
  | @more _ _ token _ scanned some _ ih =>
      obtain ⟨⟨kind, line⟩, others, rfl, same, rest⟩ := List.map_eq_cons_iff.mp clean.symm
      cases same
      obtain ⟨kinds, yields, same⟩ := ih rest.symm
      exact ⟨kind :: kinds, .cons scanned some yields, by simp [same]⟩

end Cursor

end Wordlang
