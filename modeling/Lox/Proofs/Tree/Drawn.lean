import Mathlib.Data.List.Nodup
import Mathlib.Data.List.Perm.Subperm
import Lox.Proofs.Tree.Notes
import Lox.Tree.Supply

/-! Notes that were drawn from the keys, one after the other. -/

namespace Lox

variable {π : Type}

/-- The keys of the nodes of a program, those of its parts first. -/
def Program.keys (p : Program (Keyed π)) : List Nat := (Program.notes p).map Keyed.key

theorem Program.keys_append (p q : Program (Keyed π)) :
    Program.keys (p ++ q) = Program.keys p ++ Program.keys q := by
  rw [keys, Program.notes_append, List.map_append, keys, keys]

/-- No two of the notes have the same key, and the keys begin at `k` and end before `k'`. -/
structure Drawn (k k' : Nat) (notes : List (Keyed π)) : Prop where
  le : k ≤ k'
  range : ∀ n ∈ notes, k ≤ n.key ∧ n.key < k'
  nodup : (notes.map Keyed.key).Nodup

namespace Drawn

variable {k m k' : Nat} {notes others : List (Keyed π)}

theorem nil (h : k ≤ k') : Drawn k k' ([] : List (Keyed π)) := ⟨h, nofun, List.nodup_nil⟩

theorem one (k : Nat) (p : π) : Drawn k (k + 1) [⟨k, p⟩] := by
  refine ⟨Nat.le_succ k, fun n hn => ?_, List.nodup_singleton _⟩
  rw [List.mem_singleton.mp hn]
  exact ⟨Nat.le_refl k, Nat.lt_succ_self k⟩

theorem keys_range (h : Drawn k k' notes) {key : Nat} (hkey : key ∈ notes.map Keyed.key) :
    k ≤ key ∧ key < k' := by
  obtain ⟨n, hn, rfl⟩ := List.mem_map.mp hkey
  exact h.range n hn

/-- What is drawn later has greater keys. -/
theorem append (h : Drawn k m notes) (h' : Drawn m k' others) : Drawn k k' (notes ++ others) := by
  refine ⟨Nat.le_trans h.le h'.le, fun n hn => ?_, ?_⟩
  · rcases List.mem_append.mp hn with hn | hn
    · exact ⟨(h.range n hn).1, Nat.lt_of_lt_of_le (h.range n hn).2 h'.le⟩
    · exact ⟨Nat.le_trans h.le (h'.range n hn).1, (h'.range n hn).2⟩
  · rw [List.map_append]
    refine List.Nodup.append h.nodup h'.nodup fun key hkey hkey' => ?_
    exact Nat.not_lt.mpr (h'.keys_range hkey').1 (h.keys_range hkey).2

/-- Some of the notes may have been given up, and the others stand in any order. -/
theorem subperm (h : Drawn k k' notes) (hsub : others.Subperm notes) : Drawn k k' others := by
  refine ⟨h.le, fun n hn => h.range n (hsub.subset hn), ?_⟩
  obtain ⟨kept, hperm, hkept⟩ := hsub
  exact ((hperm.map _).nodup_iff).mp (h.nodup.sublist (hkept.map _))

theorem map {ρ : Type} {f : Keyed π → Keyed ρ} (hf : ∀ n, (f n).key = n.key)
    (h : Drawn k k' notes) : Drawn k k' (notes.map f) := by
  have hkeys : (notes.map f).map Keyed.key = notes.map Keyed.key := by
    rw [List.map_map]
    exact List.map_congr_left fun n _ => hf n
  refine ⟨h.le, List.forall_mem_map.mpr fun n hn => ?_, hkeys ▸ h.nodup⟩
  rw [hf]
  exact h.range n hn

end Drawn

end Lox
