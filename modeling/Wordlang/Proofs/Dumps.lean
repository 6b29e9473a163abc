import Wordlang.Proofs.Scanning
import Wordlang.Proofs.Success

/-! # Token dumps

A dump of tokens holds their texts, one to a line. It is read back as the same tokens, now on
lines of their own: the newlines keep marks apart that would otherwise be read as one.
-/

namespace Wordlang

open Token (Kind)

namespace Token

def onLines (line : Nat) (tokens : List Token) : List Token :=
  tokens.mapIdx fun i token => { token with line := i + line }

variable {token : Token} {tokens : List Token}

@[simp] theorem onLines_cons (line : Nat) :
    onLines line (token :: tokens) = { token with line } :: onLines (line + 1) tokens := by
  simp [onLines, List.mapIdx_cons, Nat.add_comm, Nat.add_left_comm]

theorem toList_dump_cons (token : Token) (tokens : List Token) :
    (dump (token :: tokens)).toList =
      token.kind.text.toList ++ tokens.flatMap fun token => '\n' :: token.kind.text.toList := by
  induction tokens generalizing token with
  | nil => simp [dump]
  | cons next rest ih =>
      have same : dump (token :: next :: rest) = token.kind.text ++ "\n" ++ dump (next :: rest) :=
        String.intercalate_cons_cons
      rw [same, String.toList_append, String.toList_append, ih, List.append_assoc]
      rfl

end Token

open Token (dump onLines)

theorem Token.Kind.Writable.ne_eof {kind : Kind} (writable : kind.Writable) : kind ≠ .eof := by
  rintro rfl
  exact writable

namespace Cursor

theorem Scans.exists_end {cursor : Cursor} {items : List Item} (scans : cursor.Scans items)
    {tokens : List Token} (clean : items = tokens.map .ok) :
    ∃ own line, tokens = own ++ [{ kind := .eof, line }] ∧
      ∀ token ∈ own, token.kind.Writable := by
  induction scans generalizing tokens with
  | @last _ _ token scanned isEof =>
      obtain ⟨⟨kind, line⟩, rfl, same⟩ := List.map_eq_singleton_iff.mp clean.symm
      cases same
      obtain rfl : kind = .eof := isEof
      exact ⟨[], line, rfl, nofun⟩
  | error _ =>
      obtain ⟨_, _, same⟩ := List.map_eq_singleton_iff.mp clean.symm
      exact absurd same nofun
  | @more _ _ token _ scanned some _ ih =>
      obtain ⟨first, others, rfl, same, rest⟩ := List.map_eq_cons_iff.mp clean.symm
      obtain rfl : first = token := Except.ok.inj same
      obtain ⟨own, line, rfl, writable⟩ := ih rest.symm
      have isWritable := Lexeme.writable_read (scan_eq_ok scanned).1 some
      exact ⟨first :: own, line, rfl, List.forall_mem_cons.mpr ⟨isWritable, writable⟩⟩

theorem ends_lines (tokens : List Token) :
    Lexeme.Ends (tokens.flatMap fun token => '\n' :: token.kind.text.toList) := by
  intro c rest same
  cases tokens with
  | nil => exact absurd same nofun
  | cons =>
      obtain rfl : '\n' = c := (List.cons.inj same).1
      decide

private theorem scans_lines {tokens : List Token} (writable : ∀ token ∈ tokens, token.kind.Writable)
    (line : Nat) :
    Scans { rest := tokens.flatMap fun token => '\n' :: token.kind.text.toList, line }
      ((onLines (line + 1) tokens ++ [Token.mk .eof (line + tokens.length)]).map .ok) := by
  induction tokens generalizing line with
  | nil => exact .last (scan_blanks (List.forall_mem_nil _) line) rfl
  | cons token rest ih =>
      obtain ⟨own, others⟩ := List.forall_mem_cons.mp writable
      have blank : ∀ c ∈ ['\n'], Text.isBlank c = true := List.forall_mem_singleton.mpr rfl
      have scanned := scan_text blank own (ends_lines rest) line
      have later := ih others (line + 1)
      rw [Token.onLines_cons, List.length_cons, Nat.add_comm rest.length, ← Nat.add_assoc]
      exact .more scanned own.ne_eof later

theorem scans_dump {tokens : List Token} (writable : ∀ token ∈ tokens, token.kind.Writable) :
    Scans (start (dump tokens))
      ((onLines 1 tokens ++ [Token.mk .eof (max 1 tokens.length)]).map .ok) := by
  cases tokens with
  | nil => exact .last (scan_blanks (List.forall_mem_nil _) 1) rfl
  | cons token rest =>
      obtain ⟨own, others⟩ := List.forall_mem_cons.mp writable
      have scanned := scan_text (List.forall_mem_nil _) own (ends_lines rest) 1
      have later := scans_lines others 1
      rw [start, Token.toList_dump_cons, Token.onLines_cons, List.length_cons,
        Nat.max_eq_right (Nat.le_add_left _ _), Nat.add_comm rest.length]
      exact .more scanned own.ne_eof later

end Cursor

/-- The dump of the tokens of a text, but for its end, is read back as the same tokens, each on
    a line of its own. -/
theorem tokenize_dump {text : String} {tokens : List Token} (clean : tokenize text = .ok tokens) :
    ∃ own line, tokens = own ++ [{ kind := .eof, line }] ∧
      tokenize (dump own) = .ok
        ((own.mapIdx fun i token => { token with line := i + 1 }) ++
          [{ kind := .eof, line := max 1 own.length }]) := by
  obtain ⟨own, line, rfl, writable⟩ := (tokenize_eq_ok.mp clean).exists_end rfl
  exact ⟨own, line, rfl, tokenize_eq_ok.mpr (Cursor.scans_dump writable)⟩

/-- Marks that are one mark without the blanks between them, names that begin like keywords, and
    the largest number. -/
def lookalikesText : String :=
  "< = <= = == ! =\n! != | || - 1 ints iff _ whil while\n\n0002147483647 0if"

theorem lookalikes_dump : ∃ tokens own line, tokenize lookalikesText = .ok tokens ∧
    tokens = own ++ [{ kind := .eof, line }] ∧ own.length = 21 ∧
    tokenize (dump own) = .ok
      ((own.mapIdx fun i token => { token with line := i + 1 }) ++
        [{ kind := .eof, line := max 1 own.length }]) := by
  obtain ⟨tokens, clean, counted⟩ := exists_ok_of_any (x := tokenize lookalikesText)
    (p := fun tokens => tokens.length == 22) (by decide +kernel)
  obtain ⟨own, line, rfl, again⟩ := tokenize_dump clean
  exact ⟨_, own, line, clean, rfl, by simpa using counted, again⟩

end Wordlang
