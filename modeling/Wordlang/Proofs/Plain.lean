import Wordlang.Proofs.Repeated

/-! # Programs that were read are plain

The tokens of a text are names that are names and numbers of 31 bits, so the trees that are read
from them hold no others: whatever was read can be written again.
-/

namespace Wordlang

open Token (Kind Writable kinds)

theorem Expr.Spelled.plain {rank : Nat} {e : Expr} {kinds : List Kind}
    (spelled : e.Spelled rank kinds) (writable : Writable kinds) : e.Plain := by
  induction spelled with
  | looser _ ih => exact ih writable
  | int => simpa [Expr.Plain] using writable
  | bool => trivial
  | var => simpa [Expr.Plain] using writable
  | index _ ih =>
      simp only [List.cons_append, Writable.cons_iff, Kind.writable_ident, Kind.writable_punct,
        Writable.append_iff, Writable.nil, and_self, and_true, true_and] at writable
      exact ⟨writable.1, ih writable.2⟩
  | parens _ ih | magnitude _ ih | neg _ ih | not _ ih =>
      simp only [List.cons_append, Writable.cons_iff, Kind.writable_punct, Writable.append_iff,
        Writable.nil, and_self, and_true, true_and] at writable
      exact ih writable
  | binary _ _ ihLeft ihRight =>
      simp only [Writable.append_iff, Writable.cons_iff, Kind.writable_punct, true_and] at writable
      exact ⟨ihLeft writable.1, ihRight writable.2⟩

theorem Spelling.Parens.plain {args : List Expr} {kinds : List Kind}
    (spelled : Parens (Expr.Spelled 0) args kinds) (writable : Writable kinds) :
    ∀ arg ∈ args, arg.Plain := by
  intro arg mem
  obtain ⟨own, isArg, inside⟩ := spelled.exists_of_mem mem
  exact isArg.plain fun kind mem => writable kind (inside mem)

mutual

theorem Stmt.Loose.plain {stmt : Stmt} {kinds : List Kind} (loose : stmt.Loose kinds)
    (writable : Writable kinds) : stmt.Plain := by
  cases loose with
  | assign value =>
      simp only [List.cons_append, Writable.cons_iff, Kind.writable_ident, Kind.writable_punct,
        Writable.append_iff, Writable.nil, and_self, and_true, true_and] at writable
      exact ⟨writable.1, value.plain writable.2⟩
  | assignIndex index value =>
      simp only [List.cons_append, List.append_assoc, Writable.cons_iff, Kind.writable_ident,
        Kind.writable_punct, Writable.append_iff, Writable.nil, and_self, and_true,
        true_and] at writable
      exact ⟨writable.1, index.plain writable.2.1, value.plain writable.2.2⟩
  | call name args =>
      simp only [List.cons_append, List.append_assoc, Writable.cons_iff, Kind.writable_ident,
        Kind.writable_punct, Writable.append_iff, Writable.nil, and_self, and_true,
        true_and] at writable
      exact ⟨writable.1, name.plain writable.2.1, args.plain writable.2.2⟩
  | callIndex index name args =>
      simp only [List.cons_append, List.append_assoc, Writable.cons_iff, Kind.writable_ident,
        Kind.writable_punct, Writable.append_iff, Writable.nil, and_self, and_true,
        true_and] at writable
      exact ⟨writable.1, index.plain writable.2.1, name.plain writable.2.2.1,
        args.plain writable.2.2.2⟩
  | when cond body =>
      simp only [List.cons_append, List.append_assoc, Writable.cons_iff, Kind.writable_keyword,
        Kind.writable_punct, Writable.append_iff, Writable.nil, and_self, and_true,
        true_and] at writable
      exact ⟨cond.plain writable.1, plainAll_of_sequence body writable.2⟩
  | choose cond thens elses =>
      simp only [List.cons_append, List.append_assoc, Writable.cons_iff, Kind.writable_keyword,
        Kind.writable_punct, Writable.append_iff, Writable.nil, and_self, and_true,
        true_and] at writable
      exact ⟨cond.plain writable.1, plainAll_of_sequence thens writable.2.1,
        plainAll_of_sequence elses writable.2.2⟩
  | loop cond body =>
      simp only [List.cons_append, List.append_assoc, Writable.cons_iff, Kind.writable_keyword,
        Kind.writable_punct, Writable.append_iff, Writable.nil, and_self, and_true,
        true_and] at writable
      exact ⟨cond.plain writable.1, plainAll_of_sequence body writable.2⟩
  | block body =>
      simp only [List.cons_append, Writable.cons_iff, Kind.writable_punct, Writable.append_iff,
        Writable.nil, and_self, and_true, true_and] at writable
      exact plainAll_of_sequence body writable

theorem Stmt.plainAll_of_sequence {stmts : List Stmt} {kinds : List Kind}
    (spelled : Spelling.Sequence Stmt.Loose stmts kinds) (writable : Writable kinds) :
    PlainAll stmts := by
  cases spelled with
  | nil => trivial
  | cons first rest =>
      simp only [Writable.append_iff] at writable
      exact ⟨first.plain writable.1, plainAll_of_sequence rest writable.2⟩

end

theorem Spelling.plain_of_type {type : Ty} (writable : Writable (Spelling.type type)) :
    type.Plain := by
  cases type with
  | int | bool => trivial
  | intarray length => simpa [Spelling.type, Ty.Plain] using writable

theorem Spelling.Commas.ne_nil {α : Type} {one : α → List Kind → Prop} {items : List α}
    {kinds : List Kind} (spelled : Commas one items kinds) : items ≠ [] := by
  cases spelled <;> exact List.cons_ne_nil _ _

theorem Func.Loose.plain {func : Func} {kinds : List Kind} (loose : func.Loose kinds)
    (writable : Writable kinds) : func.Plain := by
  obtain ⟨params, decls, body, result⟩ := loose
  simp only [List.cons_append, List.append_assoc, Writable.cons_iff, Kind.writable_keyword,
    Kind.writable_ident, Writable.append_iff, Kind.writable_punct, Writable.nil, and_self, and_true,
    true_and] at writable
  obtain ⟨name, ownParams, returns, ownDecls, ownBody, ownResult⟩ := writable
  constructor
  · exact name
  · intro param mem
    obtain ⟨own, rfl, inside⟩ := params.exists_of_mem mem
    have own : Writable (Spelling.param param) := fun kind mem => ownParams kind (inside mem)
    simp only [Spelling.param, Writable.cons_iff, Kind.writable_ident, Kind.writable_punct,
      true_and] at own
    exact ⟨own.1, Spelling.plain_of_type own.2⟩
  · exact Spelling.plain_of_type returns
  · intro decl mem
    obtain ⟨own, ⟨names, spelled, rfl⟩, inside⟩ := decls.exists_of_mem mem
    have own : Writable _ := fun kind mem => ownDecls kind (inside mem)
    simp only [List.cons_append, List.append_assoc, Writable.cons_iff, Kind.writable_keyword,
      Writable.append_iff, Kind.writable_punct, Writable.nil, and_self, and_true, true_and] at own
    refine ⟨spelled.ne_nil, fun name mem => ?_, Spelling.plain_of_type own.2⟩
    obtain ⟨_, rfl, inName⟩ := spelled.exists_of_mem mem
    simpa using own.1 (.ident name) (inName List.mem_cons_self)
  · exact Stmt.plainAll_of_sequence body ownBody
  · exact result.plain ownResult

theorem Func.plain_unscoped {func : Func} : func.unscoped.Plain ↔ func.Plain := by
  constructor <;> exact fun ⟨name, params, returns, decls, body, result⟩ =>
    ⟨name, params, returns, decls, body, result⟩

theorem Program.Plain.of_unscoped {program resolved : Program} (plain : program.Plain)
    (same : resolved.map Func.unscoped = program.map Func.unscoped) : resolved.Plain := by
  intro func mem
  have mem : func.unscoped ∈ program.map Func.unscoped := same ▸ List.mem_map_of_mem mem
  obtain ⟨own, inProgram, same⟩ := List.mem_map.mp mem
  exact Func.plain_unscoped.mp (same ▸ Func.plain_unscoped.mpr (plain own inProgram))

/-- A program that was read, by whichever call of a parser, can be written. -/
theorem Program.plain_of_answer {text : String} {calls : Nat} {program : Program}
    (parsed : (Parser.ofText text).answer calls = .ok program) : program.Plain := by
  obtain ⟨own, -, loose, writable⟩ := Parser.loose_of_answer parsed
  intro func mem
  obtain ⟨kinds, spelled, inside⟩ := loose.exists_of_mem mem
  exact spelled.plain fun kind mem => writable kind (inside mem)

end Wordlang
