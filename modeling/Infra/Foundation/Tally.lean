import Mathlib.Algebra.Order.Ring.Nat
import Mathlib.Data.List.AList

/-!
# Sums over a finite map

`tally f m` is the sum of `f` over the values of a finite map. An entry that is
inserted adds its value to it, and one that is erased takes it away.
-/

namespace Infra

section Tally

variable {κ α : Type} [DecidableEq κ]

/-- The sum of `f` over the values of the map. -/
def tally (f : α → ℕ) (m : AList fun _ : κ => α) : ℕ := (m.entries.map fun p => f p.2).sum

omit [DecidableEq κ] in
@[simp] theorem tally_empty (f : α → ℕ) : tally f (∅ : AList fun _ : κ => α) = 0 := rfl

theorem tally_insert (f : α → ℕ) {m : AList fun _ : κ => α} {k : κ} (hk : k ∉ m) (v : α) :
    tally f (m.insert k v) = f v + tally f m := by
  simp [tally, AList.insert_of_notMem hk]

theorem tally_erase (f : α → ℕ) {m : AList fun _ : κ => α} {k : κ} {v : α}
    (hk : m.lookup k = some v) : tally f m = f v + tally f (m.erase k) := by
  have hin : k ∈ m.entries.keys := AList.lookup_isSome.mp (by simp [hk])
  obtain ⟨x, l₁, l₂, -, hsplit, herase⟩ := List.exists_of_kerase hin
  have hx : x = v := by
    have : m.lookup k = some x := AList.mem_lookup_iff.mpr (by simp [hsplit])
    exact Option.some.inj (this.symm.trans hk)
  have hentries : (m.erase k).entries = l₁ ++ l₂ := herase
  simp only [tally, hentries, hsplit, hx, List.map_append, List.map_cons, List.sum_append,
    List.sum_cons]
  omega

omit [DecidableEq κ] in
/-- A sum is zero when every value that counts in it does not count in another
one that is zero. -/
theorem tally_eq_zero {f g : α → ℕ} {m : AList fun _ : κ => α} (h : ∀ v, f v = 0 → g v = 0)
    (hf : tally f m = 0) : tally g m = 0 := by
  rw [tally, List.sum_eq_zero_iff_forall_eq_nat] at hf ⊢
  intro n hn
  obtain ⟨p, hp, rfl⟩ := List.mem_map.mp hn
  exact h p.2 (hf _ (List.mem_map_of_mem hp))

omit [DecidableEq κ] in
theorem tally_congr {f g : α → ℕ} {m : AList fun _ : κ => α}
    (h : ∀ p ∈ m.entries, f p.2 = g p.2) : tally f m = tally g m :=
  congrArg List.sum (List.map_congr_left h)

omit [DecidableEq κ] in
theorem tally_mono {f g : α → ℕ} (m : AList fun _ : κ => α) (h : ∀ v, f v ≤ g v) :
    tally f m ≤ tally g m := by
  rw [tally, tally]
  induction m.entries with
  | nil => exact le_refl 0
  | cons p ps ih =>
      rw [List.map_cons, List.map_cons, List.sum_cons, List.sum_cons]
      exact Nat.add_le_add (h p.2) ih

/-- The sum over the images of the values of another map. -/
theorem tally_of_lookup {γ : Type} {f : α → γ} {m : AList fun _ : κ => α}
    {m' : AList fun _ : κ => γ} (h : ∀ k, m'.lookup k = (m.lookup k).map f) (g : γ → ℕ) :
    tally g m' = tally (fun v => g (f v)) m := by
  have hkeys : (m.entries.map fun p => (⟨p.1, f p.2⟩ : (_ : κ) × γ)).NodupKeys := by
    rw [List.NodupKeys, List.keys, List.map_map]
    exact m.nodupKeys
  have hperm : m'.entries.Perm (m.entries.map fun p => ⟨p.1, f p.2⟩) := by
    refine (List.perm_ext_iff_of_nodup m'.nodupKeys.nodup hkeys.nodup).mpr fun p => ?_
    obtain ⟨k, v⟩ := p
    rw [← AList.mem_lookup_iff, h, Option.mem_map, List.mem_map]
    constructor
    · rintro ⟨a, ha, rfl⟩
      exact ⟨⟨k, a⟩, AList.mem_lookup_iff.mp ha, rfl⟩
    · rintro ⟨⟨k, a⟩, ha, hp⟩
      cases hp
      exact ⟨a, AList.mem_lookup_iff.mpr ha, rfl⟩
  rw [tally, (hperm.map _).sum_nat, List.map_map]
  rfl

theorem le_tally (f : α → ℕ) {m : AList fun _ : κ => α} {k : κ} {v : α}
    (hk : m.lookup k = some v) : f v ≤ tally f m := by
  rw [tally_erase f hk]
  exact Nat.le_add_right _ _

end Tally

end Infra
