import Infra.Foundation.Simulation
import Infra.RbTree.SearchTree

/-!
# Runs of a client

A client allocates and frees items, inserts, searches, deletes and replaces them,
and walks from one to the next. `sortedItems` is what it may rely on: it answers
from a list in the order of the keys, and it does not take what the client must not
do, such as to free or to insert an item that is in the tree, to use memory that it
has not allocated, or to ask for the neighbour of an item that has left the tree and
was not initialised again. The red-black tree answers every run that `sortedItems`
takes in the same way, with a number of rounds in each loop that is logarithmic in
the length of the run.
-/

namespace Infra

namespace RbTree

open Infra.RedBlack

open Infra.KeyedList

/-- The memory of the client. -/
structure Demo where
  items : Items
  mem : Store

/-- What a client does. The memory that `malloc` returns has any content. -/
inductive Op where
  | alloc (a : Addr) (garbage : RbNode) (d : MyRBDemo)
  | init (a : Addr)
  | free (a : Addr)
  | insert (a : Addr)
  | search (key : ℤ)
  | delete (a : Addr)
  | replace (victim new : Addr)
  | first
  | last
  | next (a : Addr)
  | prev (a : Addr)

/-- What a client gets. -/
inductive Answer where
  | done
  | status (ret : ℤ)
  | node (p : Ptr)
  deriving DecidableEq

/-- The items of a client: what they contain, which are initialised and in no tree, and which
are in the tree, in the order of their keys. -/
structure Client where
  items : Items
  fresh : Addr → Bool
  entries : List Addr

section Machines

/-- The red-black tree with its client, as a machine. -/
def rbTree (fuel : ℕ) : Machine Demo Op Answer where
  step s
    | .alloc a garbage d => do
        let nodes := Function.update s.mem.nodes a (some garbage)
        let m ← rbInitNode { s.mem with nodes := nodes } (some a)
        some (⟨Function.update s.items a (some d), m⟩, .done)
    | .init a => (rbInitNode s.mem (some a)).map fun m => ({ s with mem := m }, .done)
    | .free a =>
        let nodes := Function.update s.mem.nodes a none
        some (⟨Function.update s.items a none, { s.mem with nodes := nodes }⟩, .done)
    | .insert a => (myrbdemoInsert s.items s.mem fuel a).map fun r =>
        ({ s with mem := r.1 }, .status r.2)
    | .search key => (myrbdemoSearch s.items s.mem fuel key).map fun r => (s, .node r)
    | .delete a => (myrbdemoDelete s.mem fuel a).map fun m => ({ s with mem := m }, .done)
    | .replace victim new => (rbReplaceNode s.mem (some victim) (some new)).map fun m =>
        ({ s with mem := m }, .done)
    | .first => (rbFirst fuel s.mem).map fun r => (s, .node r)
    | .last => (rbLast fuel s.mem).map fun r => (s, .node r)
    | .next a => (rbNext fuel s.mem (some a)).map fun r => (s, .node r)
    | .prev a => (rbPrev fuel s.mem (some a)).map fun r => (s, .node r)

/-- What a client has to respect. -/
def Op.Legal (c : Client) : Op → Prop
  | .alloc a _ _ => c.items a = none
  | .init a | .free a | .insert a => (c.items a).isSome ∧ a ∉ c.entries
  | .search _ | .first | .last => True
  | .delete a => a ∈ c.entries
  | .replace victim new => victim ∈ c.entries ∧ (c.items new).isSome ∧ new ∉ c.entries ∧
      keyOf c.items new = keyOf c.items victim
  | .next a | .prev a => a ∈ c.entries ∨ c.fresh a

instance (c : Client) : (op : Op) → Decidable (op.Legal c)
  | .alloc a _ _ => inferInstanceAs (Decidable (c.items a = none))
  | .init a | .free a | .insert a =>
      inferInstanceAs (Decidable ((c.items a).isSome ∧ a ∉ c.entries))
  | .search _ | .first | .last => inferInstanceAs (Decidable True)
  | .delete a => inferInstanceAs (Decidable (a ∈ c.entries))
  | .replace victim new => inferInstanceAs (Decidable (victim ∈ c.entries ∧
      (c.items new).isSome ∧ new ∉ c.entries ∧ keyOf c.items new = keyOf c.items victim))
  | .next a | .prev a => inferInstanceAs (Decidable (a ∈ c.entries ∨ c.fresh a))

/-- What each action does to the list, and its answer. -/
def listStep (c : Client) : Op → Client × Answer
  | .alloc a _ d =>
      ({ c with items := Function.update c.items a (some d)
                fresh := Function.update c.fresh a true }, .done)
  | .init a => ({ c with fresh := Function.update c.fresh a true }, .done)
  | .free a =>
      ({ c with items := Function.update c.items a none
                fresh := Function.update c.fresh a false }, .done)
  | .insert a =>
      if (lookup (keyOf c.items) (keyOf c.items a) c.entries).isSome then (c, .status (-1))
      else ({ c with fresh := Function.update c.fresh a false
                     entries := put (keyOf c.items) a c.entries }, .status 0)
  | .search key => (c, .node (lookup (keyOf c.items) key c.entries))
  | .delete a => ({ c with entries := c.entries.erase a }, .done)
  | .replace victim new =>
      ({ c with fresh := Function.update c.fresh new false
                entries := c.entries.map (Function.update id victim new) }, .done)
  | .first => (c, .node c.entries.head?)
  | .last => (c, .node c.entries.getLast?)
  | .next a => (c, .node (if c.fresh a then none else c.entries[c.entries.idxOf a + 1]?))
  | .prev a =>
      (c, .node (if c.fresh a then none else (c.entries.take (c.entries.idxOf a)).getLast?))

/-- The list in the order of the keys, as a machine that answers legal actions. -/
def sortedItems : Machine Client Op Answer where
  step c op := if op.Legal c then some (listStep c op) else none

/-- A client that has allocated nothing. -/
def Client.start : Client := ⟨fun _ => none, fun _ => false, []⟩

/-- A memory without nodes, and `RB_ROOT`. -/
def Demo.start : Demo := ⟨fun _ => none, fun _ => none, none⟩

/-- The memory `s` holds the tree of the client `c`, and `fuel` rounds are enough for its
loops while at most `n` actions are still to come. -/
structure Serves (fuel n : ℕ) (s : Demo) (c : Client) : Prop where
  items : s.items = c.items
  holds : Holds c.items s.mem c.entries
  live : ∀ a, (c.items a).isSome → ∃ k, s.mem.cells a = some k
  fresh : ∀ a, c.fresh a → a ∉ c.entries ∧
    s.mem.cells a = some ⟨some a, .red, none, none⟩
  fuel : rounds (c.entries.length + n) < fuel

end Machines

section Runs

variable {fuel n : ℕ} {s : Demo} {c : Client}

/-- The rounds are enough for the tree as it is. -/
theorem Serves.rounds_lt (h : Serves fuel n s c) : rounds c.entries.length < fuel :=
  (rounds_mono (Nat.le_add_right _ n)).trans_lt h.fuel

/-- One round less is needed when nothing changes. -/
theorem Serves.of_same (h : Serves fuel (n + 1) s c) : Serves fuel n s c :=
  ⟨h.items, h.holds, h.live, h.fresh, (rounds_mono (by omega)).trans_lt h.fuel⟩

/-- A call that changes the tree: all other memory is as before. -/
theorem Serves.of_tree (h : Serves fuel (n + 1) s c) {m : Store} {xs : List Addr}
    {fresh : Addr → Bool} (hholds : Holds c.items m xs)
    (hcells : ∀ b, b ∉ xs → m.cells b = s.mem.cells b)
    (hfresh : ∀ a, fresh a → c.fresh a ∧ a ∉ xs) (hlen : xs.length ≤ c.entries.length + 1) :
    Serves fuel n { s with mem := m } { c with fresh := fresh, entries := xs } where
  items := h.items
  holds := hholds
  live a ha := by
    by_cases hmem : a ∈ xs
    · exact hholds.live hmem
    · rw [hcells a hmem]
      exact h.live a ha
  fresh a ha := by
    obtain ⟨hold, hmem⟩ := hfresh a ha
    exact ⟨hmem, (hcells a hmem).trans (h.fresh a hold).2⟩
  fuel := (rounds_mono (by simp only; omega)).trans_lt h.fuel

/-- A change of an item that is not in the tree. -/
theorem Serves.of_item (h : Serves fuel (n + 1) s c) {m : Store} {items : Items}
    {fresh : Addr → Bool} {a : Addr} (ha : a ∉ c.entries) (hroot : m.rbNode = s.mem.rbNode)
    (hcells : ∀ b, b ≠ a → m.cells b = s.mem.cells b)
    (hitems : ∀ b, b ≠ a → items b = c.items b) (hfresh : ∀ b, b ≠ a → fresh b = c.fresh b)
    (hlive : (items a).isSome → ∃ k, m.cells a = some k)
    (hfresh' : fresh a → m.cells a = some ⟨some a, .red, none, none⟩) :
    Serves fuel n ⟨items, m⟩ { c with items := items, fresh := fresh } where
  items := rfl
  holds := h.holds.congr (fun b hb => hcells b (ne_of_mem_of_not_mem hb ha)) hroot
    fun b hb => hitems b (ne_of_mem_of_not_mem hb ha)
  live b hb := by
    by_cases hba : b = a
    · subst hba
      exact hlive hb
    · rw [hcells b hba]
      exact h.live b (hitems b hba ▸ hb)
  fresh b hb := by
    by_cases hba : b = a
    · subst hba
      exact ⟨ha, hfresh' hb⟩
    · rw [hcells b hba]
      exact h.fresh b (hfresh b hba ▸ hb)
  fuel := (rounds_mono (by simp only; omega)).trans_lt h.fuel

/-- The neighbour of an item, in the tree or not. -/
theorem Serves.neighbour_eq (h : Serves fuel n s c) {a : Addr}
    (ha : a ∈ c.entries ∨ c.fresh a) :
    rbNext fuel s.mem (some a) =
        some (if c.fresh a then none else c.entries[c.entries.idxOf a + 1]?) ∧
      rbPrev fuel s.mem (some a) =
        some (if c.fresh a then none else (c.entries.take (c.entries.idxOf a)).getLast?) := by
  by_cases hfresh : c.fresh a
  · -- an item in no tree is its own parent
    have hcell := (h.fresh a hfresh).2
    simp [rbNext, rbPrev, neighbour, Store.parent_eq hcell, hfresh]
  · simpa [hfresh] using h.holds.neighbour_spec (ha.resolve_right hfresh) h.rounds_lt.le

/-- The red-black tree simulates the list. -/
theorem rbTree_simulates (fuel : ℕ) :
    Machine.Simulates (rbTree fuel) sortedItems (Serves fuel) where
  step := by
    intro n s c op c' o h hstep
    simp only [sortedItems, Option.ite_none_right_eq_some, Option.some.injEq] at hstep
    obtain ⟨hlegal, hstep⟩ := hstep
    obtain ⟨items, m⟩ := s
    obtain rfl : items = c.items := h.items
    have hrounds := h.rounds_lt
    cases op with
    | alloc a garbage d =>
        obtain ⟨rfl, rfl⟩ := Prod.mk.inj hstep
        have hcell : Store.cells { m with nodes := Function.update m.nodes a (some garbage) } a =
            some garbage.cell := by simp [Store.cells]
        obtain ⟨m', hm, e⟩ := rbInitNode_spec hcell
        have ha : a ∉ c.entries := fun hmem => by
          simpa [show c.items a = none from hlegal] using h.holds.sorted.live a hmem
        refine ⟨_, by simp [rbTree, hm], h.of_item ha e.rbNode (fun b hb => ?_)
          (fun b hb => Function.update_of_ne hb ..) (fun b hb => Function.update_of_ne hb ..)
          (fun _ => ⟨_, (e.at_eq a rfl).trans (congrArg _ hcell)⟩)
          fun _ => (e.at_eq a rfl).trans (congrArg (Option.map _) hcell)⟩
        rw [e.off b fun e => hb (Option.some.inj e).symm]
        simp [Store.cells, Function.update_of_ne hb]
    | init a =>
        obtain ⟨rfl, rfl⟩ := Prod.mk.inj hstep
        obtain ⟨k, hk⟩ := h.live a hlegal.1
        obtain ⟨m', hm, e⟩ := rbInitNode_spec hk
        exact ⟨_, by simp [rbTree, hm], h.of_item hlegal.2 e.rbNode
          (fun b hb => e.off b fun e => hb (Option.some.inj e).symm) (fun _ _ => rfl)
          (fun b hb => Function.update_of_ne hb ..)
          (fun _ => ⟨_, (e.at_eq a rfl).trans (congrArg _ hk)⟩)
          fun _ => (e.at_eq a rfl).trans (congrArg (Option.map _) hk)⟩
    | free a =>
        obtain ⟨rfl, rfl⟩ := Prod.mk.inj hstep
        refine ⟨_, rfl, h.of_item hlegal.2 rfl (fun b hb => ?_)
          (fun b hb => Function.update_of_ne hb ..) (fun b hb => Function.update_of_ne hb ..)
          (by simp) (by simp)⟩
        simp [Store.cells, Function.update_of_ne hb]
    | insert a =>
        obtain ⟨k, hk⟩ := h.live a hlegal.1
        obtain ⟨d, hd⟩ := Option.isSome_iff_exists.mp hlegal.1
        obtain ⟨⟨m', ret⟩, hm, hspec⟩ := h.holds.insert_spec hlegal.2 hk hd hrounds
        have hkey : keyOf c.items a = d.key := by simp [keyOf, hd]
        simp only [listStep, hkey] at hstep
        by_cases hin : (lookup (keyOf c.items) d.key c.entries).isSome
        · rw [if_pos hin] at hspec hstep
          obtain ⟨rfl, rfl⟩ := Prod.mk.inj hstep
          obtain ⟨rfl, rfl⟩ := Prod.mk.inj hspec
          exact ⟨_, by simp [rbTree, hm], h.of_same⟩
        · rw [if_neg hin] at hspec hstep
          obtain ⟨rfl, rfl⟩ := Prod.mk.inj hstep
          obtain ⟨rfl, hholds, hcells⟩ := hspec
          have hnone : lookup (keyOf c.items) (keyOf c.items a) c.entries = none := by
            rw [hkey]
            exact Option.not_isSome_iff_eq_none.mp hin
          refine ⟨_, by simp [rbTree, hm], h.of_tree hholds hcells (fun b hb => ?_)
            length_put_le⟩
          by_cases hba : b = a
          · simp [hba] at hb
          · rw [Function.update_of_ne hba] at hb
            exact ⟨hb, fun hmem => (h.fresh b hb).1 (((mem_put hnone).mp hmem).resolve_left hba)⟩
    | search key =>
        obtain ⟨rfl, rfl⟩ := Prod.mk.inj hstep
        exact ⟨_, by simp [rbTree, h.holds.search_spec hrounds], h.of_same⟩
    | delete a =>
        obtain ⟨rfl, rfl⟩ := Prod.mk.inj hstep
        obtain ⟨m', hm, hholds, hcells⟩ := h.holds.delete_spec hlegal hrounds
        exact ⟨_, by simp [rbTree, hm], h.of_tree hholds hcells
          (fun b hb => ⟨hb, fun hmem => (h.fresh b hb).1 (List.mem_of_mem_erase hmem)⟩)
          (List.length_erase_le.trans (Nat.le_succ _))⟩
    | replace victim new =>
        obtain ⟨rfl, rfl⟩ := Prod.mk.inj hstep
        obtain ⟨hvictim, hlive, hnew, hkey⟩ := hlegal
        obtain ⟨k, hk⟩ := h.live new hlive
        obtain ⟨m', hm, hholds, hcells⟩ := h.holds.replace_spec hvictim hnew hk hlive hkey
        refine ⟨_, by simp [rbTree, hm], h.of_tree hholds hcells (fun b hb => ?_) (by simp)⟩
        by_cases hbn : b = new
        · simp [hbn] at hb
        · rw [Function.update_of_ne hbn] at hb
          refine ⟨hb, fun hmem => ?_⟩
          obtain ⟨x, hx, rfl⟩ := List.mem_map.mp hmem
          by_cases hxv : x = victim
          · simp [hxv] at hbn
          · simp only [Function.update_of_ne hxv, id] at hb
            exact (h.fresh x hb).1 hx
    | first =>
        obtain ⟨rfl, rfl⟩ := Prod.mk.inj hstep
        obtain ⟨t, hlays, -, hlist, hheight⟩ := h.holds.exists_tree
        have hfirst := rbFirst_spec hlays (hheight.trans hrounds.le)
        exact ⟨_, by simp [rbTree, hfirst, hlist], h.of_same⟩
    | last =>
        obtain ⟨rfl, rfl⟩ := Prod.mk.inj hstep
        obtain ⟨t, hlays, -, hlist, hheight⟩ := h.holds.exists_tree
        have hlast := rbLast_spec hlays (hheight.trans hrounds.le)
        exact ⟨_, by simp [rbTree, hlast, hlist], h.of_same⟩
    | next a =>
        obtain ⟨rfl, rfl⟩ := Prod.mk.inj hstep
        exact ⟨_, by simp [rbTree, (h.neighbour_eq hlegal).1], h.of_same⟩
    | prev a =>
        obtain ⟨rfl, rfl⟩ := Prod.mk.inj hstep
        exact ⟨_, by simp [rbTree, (h.neighbour_eq hlegal).2], h.of_same⟩

/-- Every run that the list takes is answered in the same way by the red-black tree, when
each loop may make as many rounds as a tree of the length of the run is high. Afterwards the
memory holds a red-black tree of the items of the list. -/
theorem rbTree_run {ops : List Op} {os : List Answer}
    (h : sortedItems.run .start ops = some (c, os)) (hfuel : rounds ops.length < fuel) :
    ∃ s, (rbTree fuel).run .start ops = some (s, os) ∧ s.items = c.items ∧
      ∃ t, Lays s.mem t ∧ IsRedBlack t ∧ t.toList = c.entries ∧
        t.height ≤ 2 * Nat.log 2 (c.entries.length + 1) := by
  have hstart : Serves fuel ops.length .start .start :=
    ⟨rfl, .start _ _, by simp [Client.start], by simp [Client.start], by
      simpa [Client.start] using hfuel⟩
  obtain ⟨s, hrun, hs⟩ := (rbTree_simulates fuel).run hstart h
  exact ⟨s, hrun, hs.items, hs.holds.exists_tree⟩

/-- A first item, one with the same key, which stays out, and one before both. -/
theorem rbTree_run_duplicate : ∃ s, (rbTree 8).run .start
      [.alloc ⟨8#64, by decide, by decide⟩ ⟨0#64, none, none⟩ ⟨5, 50⟩,
        .insert ⟨8#64, by decide, by decide⟩,
        .alloc ⟨40#64, by decide, by decide⟩ ⟨3#64, none, none⟩ ⟨5, 51⟩,
        .insert ⟨40#64, by decide, by decide⟩, .next ⟨40#64, by decide, by decide⟩,
        .alloc ⟨80#64, by decide, by decide⟩ ⟨1#64, none, none⟩ ⟨2, 20⟩,
        .insert ⟨80#64, by decide, by decide⟩, .next ⟨80#64, by decide, by decide⟩,
        .delete ⟨8#64, by decide, by decide⟩, .search 5] =
      some (s, [.done, .status 0, .done, .status (-1), .node none, .done, .status 0,
        .node (some ⟨8#64, by decide, by decide⟩), .done, .node none]) :=
  (rbTree_run rfl (by decide)).imp fun _ h => h.1

end Runs

end RbTree

end Infra
