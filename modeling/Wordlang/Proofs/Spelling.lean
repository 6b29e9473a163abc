import Wordlang.Proofs.Lexing
import Wordlang.Tree.Loose
import Wordlang.Tree.Plain

/-! # Spelling of trees

All tokens that spell a plain tree can be written, and there is a way to spell it: with
parentheses around every operation.
-/

namespace Wordlang

open Token (Kind)

def Token.Writable (kinds : List Kind) : Prop := ∀ kind ∈ kinds, kind.Writable

open Token (Writable)

namespace Token.Writable

variable {kind : Kind} {kinds later : List Kind}

@[simp] theorem nil : Writable [] := nofun

@[simp] theorem cons_iff : Writable (kind :: kinds) ↔ kind.Writable ∧ Writable kinds :=
  List.forall_mem_cons

@[simp] theorem append_iff : Writable (kinds ++ later) ↔ Writable kinds ∧ Writable later :=
  List.forall_mem_append

end Token.Writable

@[simp] theorem Token.Kind.writable_punct (mark : Punct) : (Kind.punct mark).Writable := trivial

@[simp] theorem Token.Kind.writable_keyword (word : Keyword) : (Kind.keyword word).Writable :=
  trivial

@[simp] theorem Token.Kind.writable_ident (name : String) :
    (Kind.ident name).Writable ↔ Lexeme.IsName name := Iff.rfl

@[simp] theorem Token.Kind.writable_num (value : Nat) :
    (Kind.num value).Writable ↔ value ≤ Lexeme.maxNumber := Iff.rfl

theorem Expr.Spelled.writable {rank : Nat} {e : Expr} {kinds : List Kind}
    (spelled : e.Spelled rank kinds) (plain : e.Plain) : Writable kinds := by
  induction spelled with
  | looser _ ih => exact ih plain
  | int => simpa [Expr.Plain] using plain
  | bool => simp
  | var => simpa [Expr.Plain] using plain
  | index _ ih => simp [plain.1, ih plain.2]
  | parens _ ih => simp [ih plain]
  | magnitude _ ih => simp [ih plain]
  | neg _ ih => simp [ih plain]
  | not _ ih => simp [ih plain]
  | binary _ _ ihLeft ihRight => simp [ihLeft plain.1, ihRight plain.2]

section Lists

variable {α : Type} {one : α → List Kind → Prop} {items : List α} {kinds : List Kind}

theorem Spelling.Commas.writable (spelled : Commas one items kinds)
    (each : ∀ a ∈ items, ∀ kinds, one a kinds → Writable kinds) : Writable kinds := by
  induction spelled with
  | last isOne => exact each _ List.mem_cons_self _ isOne
  | more isOne _ ih =>
      simp [each _ List.mem_cons_self _ isOne,
        ih fun a mem => each a (List.mem_cons_of_mem _ mem)]

theorem Spelling.Parens.writable (spelled : Parens one items kinds)
    (each : ∀ a ∈ items, ∀ kinds, one a kinds → Writable kinds) : Writable kinds := by
  cases spelled with
  | none => simp
  | some spelled => simp [spelled.writable each]

theorem Spelling.Sequence.writable (spelled : Sequence one items kinds)
    (each : ∀ a ∈ items, ∀ kinds, one a kinds → Writable kinds) : Writable kinds := by
  induction spelled with
  | nil => simp
  | cons isOne _ ih =>
      simp [each _ List.mem_cons_self _ isOne,
        ih fun a mem => each a (List.mem_cons_of_mem _ mem)]

theorem Spelling.Sequence.exists_of_mem (spelled : Sequence one items kinds) {item : α}
    (mem : item ∈ items) : ∃ own, one item own ∧ own ⊆ kinds := by
  induction spelled with
  | nil => exact absurd mem List.not_mem_nil
  | cons first _ ih =>
      obtain rfl | later := List.mem_cons.mp mem
      · exact ⟨_, first, List.subset_append_left _ _⟩
      · obtain ⟨own, spelled, inside⟩ := ih later
        exact ⟨own, spelled, fun kind mem => List.mem_append_right _ (inside mem)⟩

theorem Spelling.Commas.exists_of_mem (spelled : Commas one items kinds) {item : α}
    (mem : item ∈ items) : ∃ own, one item own ∧ own ⊆ kinds := by
  induction spelled with
  | last only =>
      obtain rfl := List.mem_singleton.mp mem
      exact ⟨_, only, fun _ => id⟩
  | more first _ ih =>
      obtain rfl | later := List.mem_cons.mp mem
      · exact ⟨_, first, List.subset_append_left _ _⟩
      · obtain ⟨own, spelled, inside⟩ := ih later
        exact ⟨own, spelled, fun kind mem =>
          List.mem_append_right _ (List.mem_cons_of_mem _ (inside mem))⟩

theorem Spelling.Parens.exists_of_mem (spelled : Parens one items kinds) {item : α}
    (mem : item ∈ items) : ∃ own, one item own ∧ own ⊆ kinds := by
  cases spelled with
  | none => exact absurd mem List.not_mem_nil
  | some commas =>
      obtain ⟨own, spelled, inside⟩ := commas.exists_of_mem mem
      exact ⟨own, spelled, fun kind mem =>
        List.mem_append_left _ (List.mem_cons_of_mem _ (inside mem))⟩

end Lists

theorem Stmt.Spelled.writable {stmts : List Stmt} {kinds : List Kind}
    (spelled : Stmt.Spelled stmts kinds) (plain : PlainAll stmts) : Writable kinds := by
  induction spelled with
  | nil => simp
  | assign value _ ih =>
      obtain ⟨⟨target, plainValue⟩, others⟩ := plain
      simp [target, value.writable plainValue, ih others]
  | assignIndex index value _ ih =>
      obtain ⟨⟨target, plainIndex, plainValue⟩, others⟩ := plain
      simp [target, index.writable plainIndex, value.writable plainValue, ih others]
  | call args _ ih =>
      obtain ⟨⟨target, callee, plainArgs⟩, others⟩ := plain
      have own := args.writable fun arg mem _ spelled => spelled.writable (plainArgs arg mem)
      simp [target, callee, own, ih others]
  | callIndex index args _ ih =>
      obtain ⟨⟨target, plainIndex, callee, plainArgs⟩, others⟩ := plain
      have own := args.writable fun arg mem _ spelled => spelled.writable (plainArgs arg mem)
      simp [target, index.writable plainIndex, callee, own, ih others]
  | when cond _ _ ihBody ih =>
      obtain ⟨⟨plainCond, body⟩, others⟩ := plain
      simp [cond.writable plainCond, ihBody body, ih others]
  | choose cond _ _ _ ihThens ihElses ih =>
      obtain ⟨⟨plainCond, thens, elses⟩, others⟩ := plain
      simp [cond.writable plainCond, ihThens thens, ihElses elses, ih others]
  | loop cond _ _ ihBody ih =>
      obtain ⟨⟨plainCond, body⟩, others⟩ := plain
      simp [cond.writable plainCond, ihBody body, ih others]
  | block _ _ ihBody ih =>
      obtain ⟨body, others⟩ := plain
      simp [ihBody body, ih others]

theorem Spelling.writable_type {type : Ty} (plain : type.Plain) :
    Writable (Spelling.type type) := by
  cases type with
  | int | bool => simp [Spelling.type]
  | intarray length => simpa [Spelling.type, Ty.Plain] using plain

theorem Func.Spelled.writable {func : Func} {kinds : List Kind} (spelled : func.Spelled kinds)
    (plain : func.Plain) : Writable kinds := by
  obtain ⟨params, decls, body, result⟩ := spelled
  have ownParams := params.writable fun param mem kinds isParam => by
    obtain ⟨name, type⟩ := plain.params param mem
    simp [isParam, Spelling.param, name, Spelling.writable_type type]
  have ownDecls := decls.writable fun decl mem kinds isDecl => by
    obtain ⟨_, names, type⟩ := plain.decls decl mem
    obtain ⟨tokens, isNames, rfl⟩ := isDecl
    have ownNames := isNames.writable fun name mem kinds isName => by
      simp [isName, names name mem]
    simp [ownNames, Spelling.writable_type type]
  simp [plain.name, ownParams, Spelling.writable_type plain.returns, ownDecls,
    body.writable plain.body, result.writable plain.result]

theorem Program.Spelled.writable {program : Program} {kinds : List Kind}
    (spelled : program.Spelled kinds) (plain : program.Plain) : Writable kinds :=
  Spelling.Sequence.writable spelled fun func mem _ isFunc => isFunc.writable (plain func mem)

theorem Expr.Spelled.of_le {rank least : Nat} {e : Expr} {kinds : List Kind}
    (spelled : e.Spelled rank kinds) (le : least ≤ rank) : e.Spelled least kinds := by
  induction le with
  | refl => exact spelled
  | step _ ih => exact ih (.looser spelled)

theorem BinOp.rank_lt (op : BinOp) : op.rank < operandRank := by
  cases op <;> decide

theorem Expr.exists_spelled (e : Expr) : ∃ kinds, e.Spelled operandRank kinds := by
  induction e with
  | int => exact ⟨_, .int⟩
  | bool => exact ⟨_, .bool⟩
  | var => exact ⟨_, .var⟩
  | index _ _ _ ih =>
      obtain ⟨kinds, spelled⟩ := ih
      exact ⟨_, .index (spelled.of_le (Nat.zero_le _))⟩
  | unary _ op _ ih =>
      obtain ⟨kinds, spelled⟩ := ih
      cases op with
      | not => exact ⟨_, .not spelled⟩
      | neg => exact ⟨_, .neg spelled⟩
      | magnitude => exact ⟨_, .magnitude (spelled.of_le (Nat.zero_le _))⟩
  | binary node op _ _ ihLeft ihRight =>
      obtain ⟨first, left⟩ := ihLeft
      obtain ⟨second, right⟩ := ihRight
      have whole : Expr.Spelled op.rank (.binary node op _ _) _ :=
        .binary (left.of_le (Nat.le_of_lt op.rank_lt)) (right.of_le op.rank_lt)
      exact ⟨_, .parens (whole.of_le (Nat.zero_le _))⟩

theorem Spelling.Commas.exists {α : Type} {one : α → List Kind → Prop} {items : List α}
    (some : items ≠ []) (each : ∀ a ∈ items, ∃ kinds, one a kinds) :
    ∃ kinds, Commas one items kinds := by
  induction items with
  | nil => exact absurd rfl some
  | cons a rest ih =>
      obtain ⟨first, isFirst⟩ := each a List.mem_cons_self
      cases rest with
      | nil => exact ⟨_, .last isFirst⟩
      | cons b others =>
          obtain ⟨later, isLater⟩ := ih nofun fun b mem => each b (List.mem_cons_of_mem _ mem)
          exact ⟨_, .more isFirst isLater⟩

theorem Spelling.Parens.exists {α : Type} {one : α → List Kind → Prop} {items : List α}
    (each : ∀ a ∈ items, ∃ kinds, one a kinds) : ∃ kinds, Parens one items kinds := by
  cases items with
  | nil => exact ⟨_, .none⟩
  | cons a rest =>
      obtain ⟨kinds, spelled⟩ := Commas.exists (List.cons_ne_nil a rest) each
      exact ⟨_, .some spelled⟩

theorem Spelling.Sequence.exists {α : Type} {one : α → List Kind → Prop} {items : List α}
    (each : ∀ a ∈ items, ∃ kinds, one a kinds) : ∃ kinds, Sequence one items kinds := by
  induction items with
  | nil => exact ⟨_, .nil⟩
  | cons a rest ih =>
      obtain ⟨first, isFirst⟩ := each a List.mem_cons_self
      obtain ⟨later, isLater⟩ := ih fun b mem => each b (List.mem_cons_of_mem _ mem)
      exact ⟨_, .cons isFirst isLater⟩

theorem Expr.exists_spelled_loosest (e : Expr) : ∃ kinds, e.Spelled 0 kinds := by
  obtain ⟨kinds, spelled⟩ := e.exists_spelled
  exact ⟨kinds, spelled.of_le (Nat.zero_le _)⟩

theorem Stmt.exists_spelled (stmts : List Stmt) : ∃ kinds, Stmt.Spelled stmts kinds := by
  match stmts with
  | [] => exact ⟨_, .nil⟩
  | .assign _ value :: rest =>
      obtain ⟨kinds, isValue⟩ := value.exists_spelled_loosest
      obtain ⟨later, others⟩ := Stmt.exists_spelled rest
      exact ⟨_, .assign isValue others⟩
  | .assignIndex _ index value :: rest =>
      obtain ⟨place, isIndex⟩ := index.exists_spelled_loosest
      obtain ⟨kinds, isValue⟩ := value.exists_spelled_loosest
      obtain ⟨later, others⟩ := Stmt.exists_spelled rest
      exact ⟨_, .assignIndex isIndex isValue others⟩
  | .call _ _ _ args :: rest =>
      obtain ⟨kinds, isArgs⟩ := Spelling.Parens.exists
        fun arg (_ : arg ∈ args) => arg.exists_spelled_loosest
      obtain ⟨later, others⟩ := Stmt.exists_spelled rest
      exact ⟨_, .call isArgs others⟩
  | .callIndex _ _ index _ args :: rest =>
      obtain ⟨place, isIndex⟩ := index.exists_spelled_loosest
      obtain ⟨kinds, isArgs⟩ := Spelling.Parens.exists
        fun arg (_ : arg ∈ args) => arg.exists_spelled_loosest
      obtain ⟨later, others⟩ := Stmt.exists_spelled rest
      exact ⟨_, .callIndex isIndex isArgs others⟩
  | .when cond body :: rest =>
      obtain ⟨test, isCond⟩ := cond.exists_spelled_loosest
      obtain ⟨inner, isBody⟩ := Stmt.exists_spelled body
      obtain ⟨later, others⟩ := Stmt.exists_spelled rest
      exact ⟨_, .when isCond isBody others⟩
  | .choose cond thens elses :: rest =>
      obtain ⟨test, isCond⟩ := cond.exists_spelled_loosest
      obtain ⟨first, isThens⟩ := Stmt.exists_spelled thens
      obtain ⟨second, isElses⟩ := Stmt.exists_spelled elses
      obtain ⟨later, others⟩ := Stmt.exists_spelled rest
      exact ⟨_, .choose isCond isThens isElses others⟩
  | .loop cond body :: rest =>
      obtain ⟨test, isCond⟩ := cond.exists_spelled_loosest
      obtain ⟨inner, isBody⟩ := Stmt.exists_spelled body
      obtain ⟨later, others⟩ := Stmt.exists_spelled rest
      exact ⟨_, .loop isCond isBody others⟩
  | .block body :: rest =>
      obtain ⟨inner, isBody⟩ := Stmt.exists_spelled body
      obtain ⟨later, others⟩ := Stmt.exists_spelled rest
      exact ⟨_, .block isBody others⟩
termination_by sizeOf stmts

theorem Func.exists_spelled {func : Func} (plain : func.Plain) : ∃ kinds, func.Spelled kinds := by
  have params : ∃ kinds, Spelling.Parens (fun param kinds => kinds = Spelling.param param)
      func.params kinds := Spelling.Parens.exists fun _ _ => ⟨_, rfl⟩
  have decls : ∃ kinds, Spelling.Sequence Spelling.Decl func.decls kinds := by
    apply Spelling.Sequence.exists
    intro decl mem
    have names : ∃ kinds, Spelling.Commas (fun name kinds => kinds = [.ident name]) decl.names
        kinds := Spelling.Commas.exists (plain.decls decl mem).1 fun _ _ => ⟨_, rfl⟩
    obtain ⟨names, isNames⟩ := names
    exact ⟨_, names, isNames, rfl⟩
  obtain ⟨_, isParams⟩ := params
  obtain ⟨_, isDecls⟩ := decls
  obtain ⟨_, isBody⟩ := Stmt.exists_spelled func.body
  obtain ⟨_, isResult⟩ := func.result.exists_spelled_loosest
  exact ⟨_, .intro isParams isDecls isBody isResult⟩

theorem Program.exists_spelled {program : Program} (plain : program.Plain) :
    ∃ kinds, program.Spelled kinds :=
  Spelling.Sequence.exists fun func mem => Func.exists_spelled (plain func mem)

theorem Stmt.Spelled.loose {stmts : List Stmt} {kinds : List Kind}
    (spelled : Stmt.Spelled stmts kinds) : Spelling.Sequence Stmt.Loose stmts kinds := by
  have cons : ∀ {stmt rest own later}, Stmt.Loose stmt own →
      Spelling.Sequence Stmt.Loose rest later →
      Spelling.Sequence Stmt.Loose (stmt :: rest) (own ++ later) :=
    fun first others => .cons first others
  induction spelled with
  | nil => exact .nil
  | assign value _ ih => simpa using cons (.assign value) ih
  | assignIndex index value _ ih => simpa using cons (.assignIndex index value) ih
  | @call _ _ callee _ _ _ _ args _ ih =>
      have name : (Expr.var .bare callee).Spelled 0 [.ident callee] :=
        .of_le .var (Nat.zero_le _)
      simpa using cons (.call name args) ih
  | @callIndex _ _ callee _ _ _ _ _ _ index args _ ih =>
      have name : (Expr.var .bare callee).Spelled 0 [.ident callee] :=
        .of_le .var (Nat.zero_le _)
      simpa using cons (.callIndex index name args) ih
  | when cond _ _ body ih => simpa using cons (.when cond body) ih
  | choose cond _ _ _ thens elses ih => simpa using cons (.choose cond thens elses) ih
  | loop cond _ _ body ih => simpa using cons (.loop cond body) ih
  | block _ _ body ih => simpa using cons (.block body) ih

theorem Func.Spelled.loose {func : Func} {kinds : List Kind} (spelled : func.Spelled kinds) :
    func.Loose kinds := by
  obtain ⟨params, decls, body, result⟩ := spelled
  exact .intro params decls body.loose result

theorem Spelling.Sequence.imp {α : Type} {one one' : α → List Kind → Prop} {items : List α}
    {kinds : List Kind} (sequence : Sequence one items kinds)
    (each : ∀ {a own}, one a own → one' a own) : Sequence one' items kinds := by
  induction sequence with
  | nil => exact .nil
  | cons first _ ih => exact .cons (each first) ih

theorem Program.Spelled.loose {program : Program} {kinds : List Kind}
    (spelled : program.Spelled kinds) : program.Loose kinds :=
  Spelling.Sequence.imp spelled Func.Spelled.loose

end Wordlang
