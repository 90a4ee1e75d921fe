import Infra.Foundation.RedBlack.Summary
import Infra.Foundation.Simulation
import Infra.RbTree.SearchTree

/-!
# Augmented trees

A client may keep in each item a value that sums up the subtree of the item. The
function that it passes computes the value of one node from those of its children,
and `rb_augment_path` calls it on the way from a node up to the root, and for the
node beside each step. These are enough calls after an insertion and after a
removal: whatever was rotated, the values of all items are right again.
-/

namespace Infra

namespace RbTree

open Infra.RedBlack

open Infra.RedBlack.ColorTree

open Infra.KeyedList

/-- The function of the client computes the value of a node from those of its children, and
changes no other value. -/
def Computes {σ V : Type} (func : RbAugmentF σ) (value : σ → Addr → V)
    (g : Addr → Option V → Option V → V) : Prop :=
  ∀ m a data l r, m.child .left (some a) = some l → m.child .right (some a) = some r →
    Returns (func m (some a) data) fun data' =>
      value data' a = g a (l.map (value data)) (r.map (value data)) ∧
        ∀ b, b ≠ a → value data' b = value data b

section Paths

variable {σ V : Type} {func : RbAugmentF σ} {value : σ → Addr → V}
  {g : Addr → Option V → Option V → V} {m : Store} {p : Path Addr} {t : ColorTree Addr} {data : σ}
  {a : Addr}

/-- The values of a subtree are right after a call for its root. -/
structure Computed (g : Addr → Option V → Option V → V) (value : σ → Addr → V) (t : ColorTree Addr)
    (data data' : σ) : Prop where
  summed : Summed g (value data') t
  off : ∀ b, t.root ≠ some b → value data' b = value data b

theorem Computes.call (hf : Computes func value g) (h : Lays m (plug p t)) (ha : t.root = some a)
    (ht : SummedBelow g (value data) t) :
    Returns (func m (some a) data) (Computed g value t data) := by
  cases t with
  | nil => simp at ha
  | node c l b r =>
      obtain rfl : b = a := by simpa using ha
      have hcell := (laid_plug.mp h.laid).2.1
      obtain ⟨-, -, hbl, hbr, -⟩ := (nodup_join (s := .left)).mp (nodup_plug.mp h.nodup).1
      refine (hf m b data _ _ (Store.child_eq hcell .left) (Store.child_eq hcell .right)).mono
        fun data' hd => ⟨⟨?_, ?_, ?_⟩, fun x hx => hd.2 x fun e => hx (by simp [e])⟩
      · rw [hd.1, map_root_congr fun x hx => hd.2 x (ne_of_mem_of_not_mem hx hbl),
          map_root_congr fun x hx => hd.2 x (ne_of_mem_of_not_mem hx hbr)]
        rfl
      · exact ht.1.congr fun x hx => hd.2 x (ne_of_mem_of_not_mem hx hbl)
      · exact ht.2.congr fun x hx => hd.2 x (ne_of_mem_of_not_mem hx hbr)

/-- The call for the node beside a step of the way. -/
theorem Computes.beside (hf : Computes func value g) {f : Frame Addr}
    (h : Lays m (plug (f :: p) t)) (ha : t.root = some a) (ht : Summed g (value data) t)
    (hs : SummedBelow g (value data) f.sibling) :
    Returns (augmentBeside func m (some a) (some f.val) data) fun data' =>
      Summed g (value data') t ∧ Summed g (value data') f.sibling ∧
        ∀ b, t.root ≠ some b → f.sibling.root ≠ some b → value data' b = value data b := by
  obtain ⟨s, c, x, u⟩ := f
  have hu : Lays m (plug (⟨s.flip, c, x, t⟩ :: p) u) := by rwa [← plug_flip]
  have hcell := h.cell_above
  have hne : u.root ≠ some a := ha ▸ h.sibling_ne ha
  have hcall : u ≠ nil → Returns (func m u.root data) fun data' =>
      Summed g (value data') t ∧ Summed g (value data') u ∧
        ∀ b, t.root ≠ some b → u.root ≠ some b → value data' b = value data b := by
    intro hn
    obtain ⟨y, hy⟩ := Option.ne_none_iff_exists'.mp (root_eq_none.not.mpr hn)
    have hreturns := hf.call hu hy hs
    rw [← hy] at hreturns
    exact hreturns.mono fun data' hd => ⟨ht.congr fun b hb => hd.off b fun e =>
      h.notMem_around hb (mem_around_cons.mpr (Or.inr (Or.inl (root_mem e)))), hd.summed,
      fun b _ hbu => hd.off b hbu⟩
  rw [augmentBeside]
  refine Returns.bind_eq (Store.child_eq hcell .left) ?_
  refine Returns.bind_eq (Store.child_eq hcell .right) ?_
  by_cases hn : u = nil
  · subst hn
    cases s with
    | left =>
        -- the only child is called for again
        rw [if_neg (by simp [Cell.child, Cell.sided]),
          if_pos (by simp [Cell.child, Cell.sided, ha])]
        change Returns (func m t.root data) _
        rw [ha]
        refine (hf.call h ha ht.below).mono fun data' hd =>
          ⟨hd.summed, trivial, fun b hb _ => hd.off b (ha ▸ hb)⟩
    | right => exact Returns.some_iff.mpr ⟨ht, trivial, fun _ _ _ => rfl⟩
  · have hsome : u.root ≠ none := root_eq_none.not.mpr hn
    cases s with
    | left =>
        rw [if_pos (by simpa [Cell.child, Cell.sided, ha, Option.isSome_iff_ne_none] using hsome)]
        exact hcall hn
    | right =>
        rw [if_neg (by simpa [Cell.child, Cell.sided] using fun e => absurd e.symm hne),
          if_pos (by simpa [Cell.child, Cell.sided, Option.isSome_iff_ne_none] using hsome)]
        exact hcall hn

/-- `rb_augment_path` makes all values right that are out of date on its way. -/
theorem rbAugmentPath_spec (hf : Computes func value g) (h : Lays m (plug p t))
    (ha : t.root = some a) (ht : SummedBelow g (value data) t)
    (hp : ∀ f ∈ p, SummedBelow g (value data) f.sibling) {fuel : ℕ} (hfuel : p.length < fuel) :
    Returns (rbAugmentPath func m fuel (some a) data) fun data' =>
      Summed g (value data') (plug p t) ∧
        ∀ b, b ∉ (plug p t).toList → value data' b = value data b := by
  induction p generalizing t a data fuel with
  | nil =>
      obtain ⟨fuel, rfl⟩ : ∃ i, fuel = i + 1 := ⟨fuel - 1, by omega⟩
      rw [rbAugmentPath]
      refine (hf.call h ha ht).bind fun data₁ h₁ => ?_
      refine Returns.bind_eq (h.parent_eq ha) ?_
      rw [above_nil, if_pos (by rfl)]
      exact Returns.some_iff.mpr ⟨h₁.summed, fun b hb => h₁.off b fun e => hb (root_mem e)⟩
  | cons f p ih =>
      obtain ⟨fuel, rfl⟩ : ∃ i, fuel = i + 1 := ⟨fuel - 1, by omega⟩
      simp only [List.forall_mem_cons] at hp
      obtain ⟨-, -, -, -, hdisj⟩ := nodup_around_cons.mp (nodup_plug.mp h.nodup).2.1
      have haround : ∀ b ∈ around (f :: p), t.root ≠ some b := fun b hb e =>
        h.notMem_around (root_mem e) hb
      have hsib : ∀ b ∈ f.sibling.toList, b ∈ around (f :: p) := fun b hb =>
        mem_around_cons.mpr (Or.inr (Or.inl hb))
      rw [rbAugmentPath]
      refine (hf.call h ha ht).bind fun data₁ h₁ => ?_
      refine Returns.bind_eq (h.parent_eq ha) ?_
      rw [above_cons, if_neg (by simp)]
      have hs₁ : SummedBelow g (value data₁) f.sibling :=
        hp.1.congr fun b hb => h₁.off b (haround b (hsib b hb))
      refine (hf.beside h ha h₁.summed hs₁).bind fun data₂ ⟨ht₂, hs₂, hoff₂⟩ => ?_
      have hoff : ∀ b, t.root ≠ some b → f.sibling.root ≠ some b →
          value data₂ b = value data b := fun b hbt hbs => (hoff₂ b hbt hbs).trans (h₁.off b hbt)
      have hlist : ∀ b, b ∈ (plug (f :: p) t).toList ↔ b ∈ t.toList ∨ b ∈ around (f :: p) :=
        fun b => mem_toList_plug
      have hp₂ : ∀ f' ∈ p, SummedBelow g (value data₂) f'.sibling := by
        intro f' hf'
        refine (hp.2 f' hf').congr fun b hb => ?_
        have hb' := sibling_mem_around hf' hb
        exact hoff b (haround b (mem_around_cons.mpr (Or.inr (Or.inr hb'))))
          fun e => hdisj b (root_mem e) hb'
      refine (ih (t := f.fill t) (a := f.val) h (by simp [Frame.fill])
        (by simpa [Frame.fill] using ⟨ht₂, hs₂⟩) hp₂ (by simpa using hfuel)).mono
        fun data₃ h₃ => ⟨h₃.1, fun b hb => (h₃.2 b hb).trans (hoff b ?_ ?_)⟩
      · exact fun e => hb ((hlist b).mpr (Or.inl (root_mem e)))
      · exact fun e => hb ((hlist b).mpr (Or.inr (hsib b (root_mem e))))

/-- The values that can be fixed from a node are fixed by `rb_augment_path`. -/
theorem rbAugmentPath_fixable (hf : Computes func value g) (h : Lays m t)
    (ht : Fixable g (value data) (some a) t) {fuel : ℕ} (hfuel : t.height ≤ fuel) :
    Returns (rbAugmentPath func m fuel (some a) data) fun data' =>
      Summed g (value data') t ∧ ∀ b, b ∉ t.toList → value data' b = value data b := by
  obtain ⟨q, u, rfl, hu, hsu, hq⟩ := ht
  have hlen := length_add_height_le q u
  have hpos : 0 < u.height := by
    cases u with
    | nil => simp at hu
    | node c l b r => simp
  exact rbAugmentPath_spec hf h hu hsu hq (by omega)

/-- `rb_augment_insert` after the insertion of a node. -/
theorem rbAugmentInsert_spec (hf : Computes func value g) (h : Lays m t)
    (ht : FixableAt g (value data) a t) {fuel : ℕ} (hfuel : t.height ≤ fuel) :
    Returns (rbAugmentInsert func fuel m (some a) data) fun data' =>
      Summed g (value data') t ∧ ∀ b, b ∉ t.toList → value data' b = value data b := by
  obtain ⟨q, c, l, r, rfl, hfix⟩ := ht
  have hcell := (laid_plug.mp h.laid).2.1
  rw [rbAugmentInsert]
  refine Returns.bind_eq (Store.child_eq hcell .left) ?_
  refine Returns.bind_eq (Store.child_eq hcell .right) ?_
  obtain ⟨x, hx⟩ : ∃ x, l.root.or (r.root.or (some a)) = some x :=
    Option.isSome_iff_exists.mp (by simp)
  have hstart : (if l.root.isSome then l.root else if r.root.isSome then r.root else some a) =
      some x := by
    rw [← hx]
    cases l.root <;> cases r.root <;> rfl
  change Returns (rbAugmentPath func m fuel
    (if l.root.isSome then l.root else if r.root.isSome then r.root else some a) data) _
  rw [hstart]
  exact rbAugmentPath_fixable hf h (hx ▸ hfix) hfuel

/-- `rb_augment_erase_begin` finds the deepest node. -/
theorem rbAugmentEraseBegin_spec {x : Option Addr} (hx : Deepest p t x) (h : Lays m (plug p t))
    (ha : t.root = some a) {fuel : ℕ} (hfuel : (plug p t).height ≤ fuel) :
    rbAugmentEraseBegin fuel m (some a) = some x := by
  cases hx with
  | @single s c b u =>
      obtain rfl : b = a := by simpa using ha
      have hparent := h.parent_eq (root_join ..)
      rw [rbAugmentEraseBegin, Store.child_eq h.cell, Store.child_eq h.cell]
      by_cases hu : u = nil
      · subst hu
        cases s <;> simpa [Cell.child, Cell.sided] using hparent
      · obtain ⟨y, hy⟩ := Option.ne_none_iff_exists'.mp (root_eq_none.not.mpr hu)
        cases s <;> simp [Cell.child, Cell.sided, hy]
  | @double q c d b y l w hl hq =>
      obtain rfl : b = a := by simpa using ha
      have hdown : Lays m (plug (q ++ ⟨.right, c, b, l⟩ :: p) (join .left d nil y w)) := by
        rw [plug_append]
        exact h
      have hcell := (laid_plug.mp h.laid).2.1
      have hnext : rbNext fuel m (some b) = some (some y) := by
        have := neighbour_spec (s := .right) h hfuel
        rwa [listing, toList_plug_left hq] at this
      have hr : (plug q (join .left d nil y w)).root ≠ none := root_eq_none.not.mpr fun e => by
        simpa [toList_plug_left hq] using congrArg toList e
      rw [rbAugmentEraseBegin, Store.child_eq hcell, Store.child_eq hcell]
      simp only [Cell.child, Option.bind_eq_bind, Option.bind_some]
      rw [if_neg (by simp [hr]), if_neg (by simp [hr]),
        if_neg (by simpa using root_eq_none.not.mpr hl), augmentDeepest, hnext]
      simp only [Option.bind_eq_bind, Option.bind_some, Store.child_eq hdown.cell,
        Store.parent_eq hdown.cell, Cell.sided]
      cases hw : w.root with
      | some z => simp [Cell.child]
      | none =>
          cases q with
          | nil => simp [Cell.child]
          | cons f q =>
              have hfb : some f.val ≠ some b := by
                have har := ((nodup_join (s := .left)).mp (nodup_plug.mp h.nodup).1).2.2.2.1
                rintro e
                exact har (Option.some.inj e ▸ mem_toList_plug.mpr
                  (Or.inr (mem_around_cons.mpr (Or.inl rfl))))
              simp [Cell.child, hfb]

/-- `rb_augment_erase_end` after the removal of a node. -/
theorem rbAugmentEraseEnd_spec {x : Option Addr} (hf : Computes func value g) (h : Lays m t)
    (ht : FixableFrom g (value data) t x) {fuel : ℕ} (hfuel : t.height ≤ fuel) :
    Returns (rbAugmentEraseEnd func fuel m x data) fun data' =>
      Summed g (value data') t ∧ ∀ b, b ∉ t.toList → value data' b = value data b := by
  cases x with
  | none =>
      obtain rfl : t = nil := ht
      exact ⟨data, rfl, trivial, fun _ _ => rfl⟩
  | some x => exact rbAugmentPath_fixable hf h ht hfuel

end Paths

/-! ## The number of items in a subtree -/

section Count

/-- The function of a client that counts the items of each subtree. -/
def countItems : RbAugmentF (Addr → ℕ) := fun m node count => do
  let a ← node
  let left ← m.child .left node
  let right ← m.child .right node
  some (Function.update count a ((left.map count).getD 0 + 1 + (right.map count).getD 0))

theorem countItems_computes :
    Computes countItems id fun _ l r => l.getD 0 + 1 + r.getD 0 := by
  intro m a count l r hl hr
  refine ⟨Function.update count a ((l.map count).getD 0 + 1 + (r.map count).getD 0),
    by simp [countItems, hl, hr], by simp, fun b hb => ?_⟩
  exact Function.update_of_ne hb ..

end Count

/-! ## Runs with a summary -/

/-- What the client of an augmented tree does to its tree. -/
inductive AugmentedOp where
  | insert (a : Addr)
  | delete (a : Addr)

section Runs

variable {σ V : Type}

/-- An insertion and a removal, with the calls that keep the values. -/
def augmentedTree (func : RbAugmentF σ) (items : Items) (fuel : ℕ) :
    Machine (Store × σ) AugmentedOp ℤ where
  step s
    | .insert a => do
        let (m, ret) ← myrbdemoInsert items s.1 fuel a
        if ret = 0 then do
          let data ← rbAugmentInsert func fuel m (some a) s.2
          some ((m, data), ret)
        else some ((m, s.2), ret)
    | .delete a => do
        let deepest ← rbAugmentEraseBegin fuel s.1 (some a)
        let m ← myrbdemoDelete s.1 fuel a
        let data ← rbAugmentEraseEnd func fuel m deepest s.2
        some ((m, data), 0)

/-- The items in the tree, in the order of their keys, as a machine that takes what the client
may do. -/
def itemList (items : Items) : Machine (List Addr) AugmentedOp ℤ where
  step xs
    | .insert a =>
        if (items a).isSome ∧ a ∉ xs then
          if (lookup (keyOf items) (keyOf items a) xs).isSome then some (xs, -1)
          else some (put (keyOf items) a xs, 0)
        else none
    | .delete a => if a ∈ xs then some (xs.erase a, 0) else none

/-- The memory holds a red-black tree of the items of the list, with the right values, and
`fuel` rounds are enough while at most `n` actions are still to come. -/
structure Sums (value : σ → Addr → V) (g : Addr → Option V → Option V → V) (items : Items)
    (fuel n : ℕ) (s : Store × σ) (xs : List Addr) : Prop where
  tree : ∃ t, Lays s.1 t ∧ IsRedBlack t ∧ t.toList = xs ∧ Summed g (value s.2) t
  sorted : Sorted items xs
  live : ∀ a, (items a).isSome → ∃ k, s.1.cells a = some k
  fuel : rounds (xs.length + n) < fuel

variable {func : RbAugmentF σ} {value : σ → Addr → V} {g : Addr → Option V → Option V → V}
  {items : Items}

/-- The augmented tree simulates the list, and keeps the values right. -/
theorem augmentedTree_simulates (hf : Computes func value g) (fuel : ℕ) :
    Machine.Simulates (augmentedTree func items fuel) (itemList items)
      (Sums value g items fuel) where
  step := by
    intro n ⟨m, data⟩ xs op xs' o h hstep
    obtain ⟨t, hlays, hrb, rfl, hsum⟩ := h.tree
    have hbound := (rounds_mono (Nat.le_add_right t.toList.length (n + 1))).trans_lt h.fuel
    have hheight : t.height < fuel := hrb.height_le.trans_lt hbound
    cases op with
    | insert a =>
        obtain ⟨⟨hlive, hnew⟩, hstep⟩ := Option.ite_none_right_eq_some.mp hstep
        obtain ⟨k, hk⟩ := h.live a hlive
        obtain ⟨d, hd⟩ := Option.isSome_iff_exists.mp hlive
        obtain ⟨⟨m', ret⟩, hm, hspec⟩ := myrbdemoInsert_spec hlays hrb h.sorted hnew hk hd hheight
        rw [show keyOf items a = d.key by simp [keyOf, hd]] at hstep
        by_cases hin : (lookup (keyOf items) d.key t.toList).isSome
        · rw [if_pos hin] at hspec hstep
          obtain ⟨rfl, rfl⟩ := Prod.mk.inj hspec
          obtain ⟨rfl, rfl⟩ := Prod.mk.inj (Option.some.inj hstep)
          exact ⟨(m', data), by simp [augmentedTree, hm], ⟨t, hlays, hrb, rfl, hsum⟩, h.sorted,
            h.live, (rounds_mono (by omega)).trans_lt h.fuel⟩
        · rw [if_neg hin] at hspec hstep
          obtain ⟨rfl, p, T, rfl, hleaves, hTrb, hput, j, hfix⟩ := hspec
          obtain ⟨rfl, rfl⟩ := Prod.mk.inj (Option.some.inj hstep)
          have hlen : (put (keyOf items) a (plug p nil).toList).length + n ≤
              (plug p nil).toList.length + (n + 1) := by
            have := @length_put_le _ _ _ (keyOf items) a (plug p nil).toList
            omega
          have hfuel := (rounds_mono hlen).trans_lt h.fuel
          have hTheight : T.height ≤ fuel := by
            have := hTrb.height_le
            rw [hput] at this
            exact (this.trans (rounds_mono (Nat.le_add_right _ n))).trans hfuel.le
          obtain ⟨data', hdata, hsum', -⟩ := rbAugmentInsert_spec hf hleaves.lays
            (hfix.fixableAt ⟨[], rfl, by simp⟩ (summed_plug hsum).2) hTheight
          exact ⟨(m', data'), by simp [augmentedTree, hm, hdata],
            ⟨T, hleaves.lays, hTrb, hput, hsum'⟩, h.sorted.put hd hin,
            fun b hb => hleaves.live (h.live b hb), hfuel⟩
    | delete a =>
        obtain ⟨ha, hstep⟩ := Option.ite_none_right_eq_some.mp hstep
        obtain ⟨rfl, rfl⟩ := Prod.mk.inj (Option.some.inj hstep)
        obtain ⟨p, c, l, r, rfl⟩ := exists_plug_of_mem ha
        obtain ⟨m', hm, T, hleaves, hT, hTrb, j, herases⟩ := erase_spec hlays hrb hheight
        rw [← hlays.erase_eq] at hT
        obtain ⟨x, hx, hfix⟩ := herases.fixableFrom hsum
        have hlen : ((plug p (node c l a r)).toList.erase a).length + n ≤
            (plug p (node c l a r)).toList.length + (n + 1) := by
          have := List.length_erase_le (a := a) (l := (plug p (node c l a r)).toList)
          omega
        have hfuel := (rounds_mono hlen).trans_lt h.fuel
        have hTheight : T.height ≤ fuel := by
          have := hTrb.height_le
          rw [hT] at this
          exact (this.trans (rounds_mono (Nat.le_add_right _ n))).trans hfuel.le
        obtain ⟨data', hdata, hsum', -⟩ := rbAugmentEraseEnd_spec hf hleaves.lays hfix hTheight
        refine ⟨(m', data'), ?_, ⟨T, hleaves.lays, hTrb, hT, hsum'⟩,
          h.sorted.sublist List.erase_sublist, fun b hb => hleaves.live (h.live b hb), hfuel⟩
        simp [augmentedTree, myrbdemoDelete, rbAugmentEraseBegin_spec hx hlays rfl hheight.le, hm,
          hdata]

/-- In every run from the empty tree, whatever is inserted and deleted, the value of each item
in the tree is the one that `g` computes from those of its children. -/
theorem augmentedTree_run (hf : Computes func value g) {nodes : Addr → Option RbNode}
    (hlive : ∀ a, (items a).isSome → (nodes a).isSome) {data : σ} {ops : List AugmentedOp}
    {xs : List Addr} {os : List ℤ} (h : (itemList items).run [] ops = some (xs, os)) {fuel : ℕ}
    (hfuel : rounds ops.length < fuel) :
    ∃ s t, (augmentedTree func items fuel).run (⟨nodes, none⟩, data) ops = some (s, os) ∧
      Lays s.1 t ∧ IsRedBlack t ∧ t.toList = xs ∧ Summed g (value s.2) t := by
  have hstart : Sums value g items fuel ops.length (⟨nodes, none⟩, data) [] := by
    obtain ⟨t, hlays, hrb, hlist⟩ := (Holds.start items nodes).tree
    obtain rfl := toList_eq_nil.mp hlist
    refine ⟨⟨nil, hlays, hrb, rfl, trivial⟩, (Holds.start items nodes).sorted, fun a ha => ?_,
      by simpa using hfuel⟩
    obtain ⟨r, hr⟩ := Option.isSome_iff_exists.mp (hlive a ha)
    exact ⟨r.cell, by simp [Store.cells, hr]⟩
  obtain ⟨s, hrun, hs⟩ := (augmentedTree_simulates hf fuel).run hstart h
  obtain ⟨t, hlays, hrb, hlist, hsum⟩ := hs.tree
  exact ⟨s, t, hrun, hlays, hrb, hlist, hsum⟩

/-- Items with the keys 8, 16 and 24. -/
def threeItems : Items := fun a =>
  if a.word.toNat ≤ 24 then some ⟨a.word.toNat, 0⟩ else none

/-- Three items are inserted, and the one at the root is deleted. -/
theorem augmentedTree_run_three : ∃ s t,
    (augmentedTree countItems threeItems 8).run
        (⟨fun a => (threeItems a).map fun _ => ⟨0#64, none, none⟩, none⟩, fun _ => 0)
        [.insert ⟨8#64, by decide, by decide⟩, .insert ⟨16#64, by decide, by decide⟩,
          .insert ⟨24#64, by decide, by decide⟩, .delete ⟨16#64, by decide, by decide⟩] =
      some (s, [0, 0, 0, 0]) ∧
    Lays s.1 t ∧ IsRedBlack t ∧
      t.toList = [⟨8#64, by decide, by decide⟩, ⟨24#64, by decide, by decide⟩] ∧
      Summed (fun _ l r => l.getD 0 + 1 + r.getD 0) (id s.2) t :=
  augmentedTree_run countItems_computes (fun a ha => by simpa using ha) rfl (by decide)

end Runs

end RbTree

end Infra
