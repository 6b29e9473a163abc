import Wordlang.Proofs.Numbering
import Wordlang.Proofs.Repeated
import Wordlang.Proofs.Stands

/-! # Order of ids

All calls of a parser together give out ids upwards, whether they fail or not. So the ids of a
program are in the order in which its nodes are finished: operands before operators, and of two
nodes none of which is in the other, the one that stands in front first.
-/

namespace Wordlang

open Token (kinds)

namespace Parser

private theorem programs_succ (s : Parser) (calls : Nat) :
    s.programs (calls + 1) = s.programs calls ++ (s.answer calls).toOption.toList := by
  rw [programs, programs, List.range_succ, List.filterMap_append]
  cases returned : (s.answer calls).toOption <;> simp [returned]

/-- The programs that are returned have increasing ids, and failing calls at most leave some
    out. -/
theorem programs_within (s : Parser) (calls : Nat) :
    Within ((s.programs calls).flatMap Program.ids) s.nextId (s.behind calls).nextId := by
  induction calls with
  | zero => exact .nil _
  | succ calls ih =>
      rw [programs_succ, List.flatMap_append]
      cases answered : s.answer calls with
      | ok program =>
          have ids := program_numbers.frame _ _ _ _ _ ih (answer_eq_ok.mp answered)
          simpa [Except.toOption] using ids
      | error error =>
          have later : (s.behind calls).nextId ≤ (s.behind (calls + 1)).nextId :=
            (steps_call (s.behind calls)).nextId_le
          simpa [Except.toOption] using ih.mono later

end Parser

namespace Expr

theorem exists_parts (e : Expr) : ∃ inner, e.parts = inner ++ [e] := by
  cases e with
  | int | bool | var => exact ⟨[], rfl⟩
  | index | unary | binary => exact ⟨_, rfl⟩

theorem parts_sublist {e part : Expr} (mem : part ∈ e.parts) : part.parts.Sublist e.parts := by
  induction e with
  | int | bool | var =>
      obtain rfl := List.mem_singleton.mp mem
      exact .refl _
  | index _ _ element ih | unary _ _ element ih =>
      rcases List.mem_append.mp mem with inside | itself
      · exact (ih inside).trans (List.sublist_append_left _ _)
      · obtain rfl := List.mem_singleton.mp itself
        exact .refl _
  | binary _ _ left right ihLeft ihRight =>
      rcases List.mem_append.mp mem with inside | itself
      · refine List.Sublist.trans ?_ (List.sublist_append_left _ _)
        rcases List.mem_append.mp inside with inLeft | inRight
        · exact (ihLeft inLeft).trans (List.sublist_append_left _ _)
        · exact (ihRight inRight).trans (List.sublist_append_right _ _)
      · obtain rfl := List.mem_singleton.mp itself
        exact .refl _

end Expr

namespace Program

variable {program : Program}

theorem ids_eq (program : Program) : program.ids = program.parts.map Expr.id := by
  rw [ids, parts, List.map_flatMap]
  rfl

theorem parts_sublist {e : Expr} (mem : e ∈ program.parts) : e.parts.Sublist program.parts := by
  obtain ⟨whole, isWhole, mem⟩ := List.mem_flatMap.mp mem
  exact (Expr.parts_sublist mem).trans (List.sublist_flatten_of_mem (List.mem_map_of_mem isWhole))

theorem id_lt_of_part (sorted : program.ids.Pairwise (· < ·)) {e inner : Expr}
    (mem : e ∈ program.parts) (isPart : inner ∈ e.parts) (proper : inner ≠ e) :
    inner.id < e.id := by
  obtain ⟨others, parts⟩ := e.exists_parts
  rw [ids_eq, List.pairwise_map] at sorted
  have own := sorted.sublist (parts_sublist mem)
  rw [parts] at own isPart
  rcases List.mem_append.mp isPart with inside | itself
  · exact (List.pairwise_append.mp own).2.2 inner inside e (List.mem_singleton_self e)
  · exact absurd (List.mem_singleton.mp itself) proper

theorem Stands.id_lt_iff {kinds : List Token.Kind} {stands : List Stand}
    (stands_ : program.Stands kinds stands) (sorted : program.ids.Pairwise (· < ·))
    {stand other : Stand} (mem : stand ∈ stands) (mem' : other ∈ stands)
    (outside : stand.expr ∉ other.expr.parts) (outside' : other.expr ∉ stand.expr.parts) :
    (stand.expr.id < other.expr.id ↔ stand.stop ≤ other.first) ∧
      (stand.stop ≤ other.first ∨ other.stop ≤ stand.first) := by
  rw [ids_eq, ← stands_.exprs, List.map_map, List.pairwise_map] at sorted
  have listed := List.pairwise_iff_getElem.mp (stands_.ordered.and sorted)
  have bounds := (stands_.covers stand mem).bounds
  have bounds' := (stands_.covers other mem').bounds
  obtain ⟨i, here, rfl⟩ := List.getElem_of_mem mem
  obtain ⟨j, here', rfl⟩ := List.getElem_of_mem mem'
  rcases Nat.lt_trichotomy i j with earlier | rfl | later
  · obtain ⟨ordered, lower⟩ := listed i j here here' earlier
    have front := ordered.resolve_left outside
    exact ⟨⟨fun _ => front, fun _ => lower⟩, .inl front⟩
  · exact absurd (Expr.mem_parts _) outside
  · obtain ⟨ordered, lower⟩ := listed j i here' here later
    have front := ordered.resolve_left outside'
    refine ⟨⟨fun wrong => absurd wrong (Nat.lt_asymm lower), fun wrong => ?_⟩, .inr front⟩
    omega

end Program

/-- The nodes of all programs that the calls of a parser return have different ids, below the
    next one that is given out. In each of these programs a node has a greater id than its
    descendants, and the ids of two nodes none of which is in the other are in the order of their
    places among the tokens that the call takes. -/
theorem ids_of_calls (text : String) :
    (∀ calls, (((Parser.ofText text).programs calls).flatMap Program.ids).Nodup ∧
      ∀ id ∈ ((Parser.ofText text).programs calls).flatMap Program.ids,
        id < ((Parser.ofText text).behind calls).nextId) ∧
    ∀ calls program, (Parser.ofText text).answer calls = .ok program →
      (∀ e ∈ program.parts, ∀ inner ∈ e.parts, inner ≠ e → inner.id < e.id) ∧
      ∃ own stands,
        ((Parser.ofText text).behind (calls + 1)).done =
          ((Parser.ofText text).behind calls).done ++ own ∧
        program.Stands (kinds own) stands ∧ stands.map Stand.expr = program.parts ∧
        ∀ stand ∈ stands, ∀ other ∈ stands, stand.expr ∉ other.expr.parts →
          other.expr ∉ stand.expr.parts →
          (stand.expr.id < other.expr.id ↔ stand.stop ≤ other.first) ∧
            (stand.stop ≤ other.first ∨ other.stop ≤ stand.first) := by
  refine ⟨fun calls => ?_, fun calls program returned => ?_⟩
  · have within := Parser.programs_within (.ofText text) calls
    exact ⟨within.nodup, fun id mem => (within.bounds id mem).2⟩
  · have ran := Parser.answer_eq_ok.mp returned
    have sorted := (Parser.program_numbers _ _ _ _ (.nil _) ran).sorted
    obtain ⟨own, taken, loose, -⟩ := Parser.loose_of_answer returned
    obtain ⟨stands, stands_⟩ := loose.exists_stands
    exact ⟨fun e mem inner isPart proper => Program.id_lt_of_part sorted mem isPart proper,
      own, stands, taken, stands_, stands_.exprs, fun stand mem other mem' outside outside' =>
        stands_.id_lt_iff sorted mem mem' outside outside'⟩

/-- The first call numbers three nodes and then fails on the second function. The name that the
    second call reads as a callee has an id before it is dropped. -/
def abandonedText : String :=
  "function f(): int \x7b return 1 + 2 +
   function g(n: int): int \x7b n = g(n, n + n); return (n) * -n; \x7d"

theorem abandoned_ids : ∃ program own stands,
    (Parser.ofText abandonedText).answer 1 = .ok program ∧
    program.ids = [4, 5, 6, 7, 8, 9, 10, 11] ∧
    (((Parser.ofText abandonedText).programs 2).flatMap Program.ids).Nodup ∧
    (∀ e ∈ program.parts, ∀ inner ∈ e.parts, inner ≠ e → inner.id < e.id) ∧
    program.Stands (kinds own) stands ∧ stands.map Stand.expr = program.parts ∧
    ∀ stand ∈ stands, ∀ other ∈ stands, stand.expr ∉ other.expr.parts →
      other.expr ∉ stand.expr.parts →
      (stand.expr.id < other.expr.id ↔ stand.stop ≤ other.first) ∧
        (stand.stop ≤ other.first ∨ other.stop ≤ stand.first) := by
  obtain ⟨program, second, ids⟩ := exists_ok_of_any (x := (Parser.ofText abandonedText).answer 1)
    (p := fun program => program.ids == [4, 5, 6, 7, 8, 9, 10, 11]) (by decide +kernel)
  obtain ⟨distinct, each⟩ := ids_of_calls abandonedText
  obtain ⟨descending, own, stands, -, places⟩ := each 1 program second
  exact ⟨program, own, stands, second, eq_of_beq ids, (distinct 2).1, descending, places⟩

end Wordlang
