import Infra.RbTree.Calls
import Infra.RbTree.SearchTree

/-!
# Visiting all items

The traversal of the client calls its callback for the items in the order of their
keys, once each, and stops at the first one where the callback ends the program.
`call_depth` is only counted down where a subtree is empty. So after a subtree it is
one less than before, and `max_call_depth` does not count how deep the recursion
goes, but the most steps to the left on a way from the root.
-/

namespace Infra

namespace RbTree

open Infra.RedBlack

open Infra.RedBlack.ColorTree

open Infra.KeyedList

/-- The most nodes on a way down from which it goes on to the left. -/
def leftTurns : ColorTree Addr → ℕ
  | nil => 0
  | node _ l _ r => max (leftTurns l + 1) (leftTurns r)

theorem leftTurns_le_height (t : ColorTree Addr) : leftTurns t ≤ t.height := by
  induction t with
  | nil => exact le_refl 0
  | node c l a r ihl ihr =>
      rw [leftTurns, height_node]
      omega

section Traversal

variable {σ : Type} {items : Items} {m : Store} {cb : MyRBDemo → σ → Except σ σ}

/-- The callback is called for each item, until it ends the program. -/
def visitAll (cb : MyRBDemo → σ → Except σ σ) (ds : List MyRBDemo) (c : σ) : Except σ σ :=
  ds.foldlM (fun c d => cb d c) c

theorem visitAll_append_cons {ds es : List MyRBDemo} {d : MyRBDemo} {c : σ} :
    visitAll cb (ds ++ d :: es) c =
      (visitAll cb ds c >>= fun c => cb d c >>= fun c => visitAll cb es c) := by
  rw [visitAll, List.foldlM_append]
  rfl

/-- What the traversal of a subtree does. -/
def Visited (cb : MyRBDemo → σ → Except σ σ) (t : ColorTree Addr) (ds : List MyRBDemo)
    (v : Visiting σ) : Except (Visiting σ) (Visiting σ) → Prop
  | .error v' => visitAll cb ds v.client = .error v'.client
  | .ok v' => visitAll cb ds v.client = .ok v'.client ∧
      v'.callDepth = CInt.wrap (v.callDepth - 1) ∧
      v'.maxCallDepth = max v.maxCallDepth (min (v.callDepth + leftTurns t) CInt.intMax)

/-- The numbers of a traversal are `int`s, and the maximum is one. -/
structure Visiting.InRange (v : Visiting σ) : Prop where
  intMin_le : CInt.intMin ≤ v.callDepth
  le_max : v.callDepth ≤ v.maxCallDepth
  le_intMax : v.maxCallDepth ≤ CInt.intMax

/-- One more `call_depth` on the way down. -/
def Visiting.deeper (v : Visiting σ) : Visiting σ :=
  let v := { v with callDepth := CInt.wrap (v.callDepth + 1) }
  if v.callDepth > v.maxCallDepth then { v with maxCallDepth := v.callDepth } else v

theorem Visiting.deeper_eq (v : Visiting σ) :
    v.deeper = ⟨CInt.wrap (v.callDepth + 1),
      max v.maxCallDepth (CInt.wrap (v.callDepth + 1)), v.client⟩ := by
  simp only [deeper]
  split
  · rw [max_eq_right (by omega)]
  · rw [max_eq_left (by omega)]

theorem Visiting.InRange.deeper {v : Visiting σ} (hv : v.InRange) : v.deeper.InRange := by
  rw [Visiting.deeper_eq]
  exact ⟨CInt.intMin_le_wrap _, le_max_right .., max_le hv.le_intMax (CInt.wrap_le_intMax _)⟩

/-- The numbers after the two subtrees of a node. At the largest `int` the depth goes over to
the smallest one, but then the maximum is the largest `int` already. -/
theorem Visiting.InRange.max_eq {v : Visiting σ} (hv : v.InRange) (i j : ℕ) :
    max (max v.deeper.maxCallDepth (min (v.deeper.callDepth + i) CInt.intMax))
        (min (v.callDepth + j) CInt.intMax) =
      max v.maxCallDepth (min (v.callDepth + (max (i + 1) j : ℕ)) CInt.intMax) := by
  have hle := hv.le_max
  have hmax := hv.le_intMax
  have hwrap := CInt.wrap_le_intMax (v.callDepth + 1)
  rw [Visiting.deeper_eq]
  by_cases hlast : v.callDepth = CInt.intMax
  · simp only
    omega
  · have hmin := hv.intMin_le
    rw [CInt.wrap_eq_self (by omega) (by omega)]
    simp only
    omega

theorem preoderTraversal_spec {par : Option Addr} {t : ColorTree Addr} {ds : List MyRBDemo}
    (h : Laid m.cells par t) (hds : t.toList.map items = ds.map some) {fuel : ℕ}
    (hfuel : t.height < fuel) (v : Visiting σ) (hv : v.InRange) :
    Returns (preoderTraversal items m cb fuel t.root v) (Visited cb t ds v) := by
  induction t generalizing par ds fuel v with
  | nil =>
      obtain ⟨fuel, rfl⟩ : ∃ i, fuel = i + 1 := ⟨fuel - 1, by omega⟩
      obtain rfl : ds = [] := by simpa using hds.symm
      have hle := hv.le_max
      refine Returns.some_iff.mpr ⟨rfl, rfl, ?_⟩
      simp only [leftTurns]
      omega
  | node c l a r ihl ihr =>
      obtain ⟨fuel, rfl⟩ : ∃ i, fuel = i + 1 := ⟨fuel - 1, by omega⟩
      rw [height_node] at hfuel
      obtain ⟨ha, hl, hr⟩ := h
      rw [toList_node, List.map_append, List.map_cons] at hds
      obtain ⟨ds, es', rfl, hdl, hes⟩ := List.map_eq_append_iff.mp hds.symm
      obtain ⟨d, es, rfl, hd, hdr⟩ := List.map_eq_cons_iff.mp hes
      rw [root_node, preoderTraversal]
      refine Returns.bind_eq (Store.child_eq ha .left) ?_
      refine (ihl hl hdl.symm (by omega) v.deeper hv.deeper).bind fun v₁ h₁ => ?_
      have hclient : v.deeper.client = v.client := by rw [Visiting.deeper_eq]
      have hdepth : CInt.wrap (v.deeper.callDepth - 1) = v.callDepth := by
        rw [Visiting.deeper_eq, CInt.wrap_wrap_sub, add_sub_cancel_right]
        exact CInt.wrap_eq_self hv.intMin_le (hv.le_max.trans hv.le_intMax)
      cases v₁ with
      | error v₁ =>
          refine Returns.some_iff.mpr ?_
          simp only [Visited, visitAll_append_cons, hclient] at h₁ ⊢
          rw [h₁]
          rfl
      | ok v₁ =>
          obtain ⟨hc₁, hd₁, hm₁⟩ := h₁
          rw [hclient] at hc₁
          rw [hdepth] at hd₁
          refine Returns.bind_eq hd.symm ?_
          cases hcb : cb d v₁.client with
          | error c =>
              refine Returns.some_iff.mpr ?_
              simp only [Visited, visitAll_append_cons] at hc₁ ⊢
              rw [hc₁]
              simp [hcb, bind, Except.bind]
          | ok c =>
              have hv₁ : v₁.InRange := by
                have hle := hv.le_max
                have hmax := hv.deeper.le_intMax
                have hup : v.maxCallDepth ≤ v.deeper.maxCallDepth := by
                  rw [Visiting.deeper_eq]
                  exact le_max_left ..
                refine ⟨hd₁ ▸ hv.intMin_le, ?_, ?_⟩ <;> rw [hm₁]
                · omega
                · exact max_le hmax (min_le_right ..)
              refine Returns.bind_eq (Store.child_eq ha .right) ?_
              refine (ihr hr hdr.symm (by omega) { v₁ with client := c }
                ⟨hv₁.1, hv₁.2, hv₁.3⟩).mono fun v₂ h₂ => ?_
              have hvisit : visitAll cb (ds ++ d :: es) v.client = visitAll cb es c := by
                simp [visitAll_append_cons, hc₁, hcb, bind, Except.bind]
              cases v₂ with
              | error v₂ => exact hvisit.trans h₂
              | ok v₂ =>
                  obtain ⟨hc₂, hd₂, hm₂⟩ := h₂
                  simp only [hd₁, hm₁] at hd₂ hm₂
                  refine ⟨hvisit.trans hc₂, hd₂, ?_⟩
                  rw [hm₂, hv.max_eq, leftTurns]

/-- The traversal of the whole tree. -/
theorem myrbdemoDoPreorderTraversal_spec {t : ColorTree Addr} {ds : List MyRBDemo} (h : Lays m t)
    (hds : t.toList.map items = ds.map some) {fuel : ℕ} (hfuel : t.height < fuel)
    {v : Visiting σ} (hv : v.InRange) :
    Returns (myrbdemoDoPreorderTraversal items m cb fuel v) (Visited cb t ds v) := by
  rw [myrbdemoDoPreorderTraversal, h.rbNode]
  exact preoderTraversal_spec h.laid hds hfuel v hv

end Traversal

/-! ## The callback of the client -/

/-- The next key is one more, or the key before it is -1. The smallest `int` comes after the
largest one. -/
def Follows (i j : ℤ) : Prop := i = -1 ∨ CInt.wrap (i + 1) = j

/-- The callback lets the keys pass that follow each other. -/
theorem visitAll_myrbdemoPreorderCallback (ds : List MyRBDemo) (c : Sequence)
    (hmin : CInt.intMin ≤ c.itemCount) (hmax : c.itemCount ≤ CInt.intMax) :
    match visitAll myrbdemoPreorderCallback ds c with
    | .ok c' => (c.prevKey :: ds.map MyRBDemo.key).IsChain Follows ∧
        c'.itemCount = CInt.wrap (c.itemCount + ds.length)
    | .error _ => ¬ (c.prevKey :: ds.map MyRBDemo.key).IsChain Follows := by
  induction ds generalizing c with
  | nil => simp [visitAll, pure, Except.pure, CInt.wrap_eq_self hmin hmax]
  | cons d ds ih =>
      have hcons : visitAll myrbdemoPreorderCallback (d :: ds) c =
          (myrbdemoPreorderCallback d c >>= visitAll myrbdemoPreorderCallback ds) := rfl
      rw [hcons, List.map_cons, List.isChain_cons_cons]
      set count := CInt.wrap (c.itemCount + 1) with hcount
      by_cases hgap : c.prevKey ≠ -1 ∧ CInt.wrap (c.prevKey + 1) ≠ d.key
      · have hstop : myrbdemoPreorderCallback d c = .error ⟨count, c.prevKey⟩ := if_pos hgap
        simp only [hstop, bind, Except.bind]
        exact fun hchain => hchain.1.elim hgap.1 hgap.2
      · have hpass : myrbdemoPreorderCallback d c = .ok ⟨count, d.key⟩ := if_neg hgap
        have hfollows : Follows c.prevKey d.key := by
          unfold Follows
          tauto
        specialize ih ⟨count, d.key⟩ (CInt.intMin_le_wrap _) (CInt.wrap_le_intMax _)
        simp only [hpass, bind, Except.bind]
        split at ih
        · refine ⟨⟨hfollows, ih.1⟩, ?_⟩
          have hall := ih.2
          simp only at hall
          rw [hall, hcount, CInt.wrap_wrap_add, List.length_cons]
          congr 1
          omega
        · exact fun hchain => ih hchain.2

/-- The contents of items that are in memory. -/
theorem exists_items {items : Items} {xs : List Addr} (h : ∀ a ∈ xs, (items a).isSome) :
    ∃ ds : List MyRBDemo, xs.map items = ds.map some ∧
      xs.map (keyOf items) = ds.map MyRBDemo.key := by
  induction xs with
  | nil => exact ⟨[], rfl, rfl⟩
  | cons a xs ih =>
      obtain ⟨ds, hds, hkeys⟩ := ih fun b hb => h b (List.mem_cons_of_mem a hb)
      obtain ⟨d, hd⟩ := Option.isSome_iff_exists.mp (h a List.mem_cons_self)
      exact ⟨d :: ds, by simp [hd, hds], by simp [keyOf, hd, hkeys]⟩

/-- The client's traversal visits all items when each key follows the one before it, and then
it has counted them; otherwise it ends the program. However the tree is shaped, its maximal
call depth is logarithmic, and each traversal leaves the call depth one lower. -/
theorem Holds.traversal_spec {items : Items} {m : Store} {xs : List Addr} (h : Holds items m xs)
    {fuel : ℕ} (hfuel : rounds xs.length < fuel) {v : Visiting Sequence} (hv : v.InRange)
    (hmin : CInt.intMin ≤ v.client.itemCount) (hmax : v.client.itemCount ≤ CInt.intMax) :
    Returns (myrbdemoDoPreorderTraversal items m myrbdemoPreorderCallback fuel v) fun
      | .ok v' => (v.client.prevKey :: xs.map (keyOf items)).IsChain Follows ∧
          v'.client.itemCount = CInt.wrap (v.client.itemCount + xs.length) ∧
          v'.callDepth = CInt.wrap (v.callDepth - 1) ∧ v.maxCallDepth ≤ v'.maxCallDepth ∧
          v'.maxCallDepth ≤ max v.maxCallDepth (v.callDepth + 2 * Nat.log 2 (xs.length + 1))
      | .error _ => ¬ (v.client.prevKey :: xs.map (keyOf items)).IsChain Follows := by
  obtain ⟨t, hlays, -, rfl, hheight⟩ := h.exists_tree
  obtain ⟨ds, hds, hkeys⟩ := exists_items h.sorted.live
  have hlen : ds.length = t.toList.length := by simpa using (congrArg List.length hds).symm
  have hturns := leftTurns_le_height t
  have hcheck := visitAll_myrbdemoPreorderCallback ds v.client hmin hmax
  rw [hkeys]
  refine (myrbdemoDoPreorderTraversal_spec hlays hds (by omega) hv).mono fun r hr => ?_
  cases r with
  | error v' =>
      rw [show visitAll _ ds v.client = _ from hr] at hcheck
      exact hcheck
  | ok v' =>
      obtain ⟨hc, hd, hm⟩ := hr
      rw [hc] at hcheck
      obtain ⟨hchain, hcount⟩ := hcheck
      rw [hlen] at hcount
      refine ⟨hchain, hcount, hd, ?_, ?_⟩
      · rw [hm]
        exact le_max_left ..
      · rw [hm]
        refine max_le_max_left _ ((min_le_left ..).trans ?_)
        unfold rounds at hheight
        omega

/-- Eleven items with the keys from 2 on are visited by a client that has just seen the key 1 and
counted to the largest `int`. -/
theorem traversal_spec_eleven :
    Returns (myrbdemoDoPreorderTraversal (fun a => some ⟨a.word.toNat / 8, 0⟩) elevenNodes
        myrbdemoPreorderCallback 9 ⟨0, 0, ⟨CInt.intMax, 1⟩⟩) fun
      | .ok v' => [1, 2, 3, 4, 5, 6, 7, 8, 9, 10, 11, 12].IsChain Follows ∧
          v'.client.itemCount = CInt.wrap (CInt.intMax + 11) ∧ v'.callDepth = CInt.wrap (0 - 1) ∧
          0 ≤ v'.maxCallDepth ∧ v'.maxCallDepth ≤ max 0 (0 + 2 * Nat.log 2 (11 + 1))
      | .error _ => ¬ [1, 2, 3, 4, 5, 6, 7, 8, 9, 10, 11, 12].IsChain Follows :=
  Holds.traversal_spec
    ⟨⟨_, Store.ofTree_lays (by decide) (by decide) _, ⟨rfl, 3, by decide⟩, rfl⟩, by decide,
      by unfold Ascending; decide⟩
    (by decide) ⟨by decide, by decide, by decide⟩ (by decide) (by decide)

end RbTree

end Infra
