import Mathlib.Data.List.Basic

/-!
# Ordered trees in linked nodes

`OTree` is an ordered tree of addresses. `Linked ℓ parent prev next t`: the link table `ℓ` gives the
nodes of `t` the five links of this tree, with the given links to the outside at its root;
`Chain` says the same of the trees in a child list. A chain can be cut at every point
(`chain_append`), and hanging a tree into a child list is an update of at most four nodes
(`Linked.hang`).
-/

namespace Lib

/-- An ordered tree of addresses. -/
inductive OTree
  | node (addr : Nat) (kids : List OTree)

/-- The links of a node. -/
structure Links where
  parent : Option Nat
  next : Option Nat
  first : Option Nat
  prev : Option Nat
  last : Option Nat

namespace OTree

def addr : OTree → Nat
  | node a _ => a

def kids : OTree → List OTree
  | node _ ts => ts

mutual

/-- The addresses of a tree, parents first. -/
def addrs : OTree → List Nat
  | node a ts => a :: addrsList ts

def addrsList : List OTree → List Nat
  | [] => []
  | t :: ts => addrs t ++ addrsList ts

end

@[simp] theorem addr_node (a : Nat) (ts : List OTree) : (node a ts).addr = a := rfl

@[simp] theorem addrs_node (a : Nat) (ts : List OTree) : (node a ts).addrs = a :: addrsList ts := by
  rw [addrs]

@[simp] theorem addrsList_nil : addrsList [] = [] := by rw [addrsList]

@[simp] theorem addrsList_cons (t : OTree) (ts : List OTree) :
    addrsList (t :: ts) = t.addrs ++ addrsList ts := by rw [addrsList]

@[simp] theorem addrsList_append (ts us : List OTree) :
    addrsList (ts ++ us) = addrsList ts ++ addrsList us := by
  induction ts with
  | nil => simp
  | cons t ts ih => simp [ih]

theorem addr_mem (t : OTree) : t.addr ∈ t.addrs := by
  cases t
  simp

theorem mem_addrsList {ts : List OTree} {x : Nat} : x ∈ addrsList ts ↔ ∃ t ∈ ts, x ∈ t.addrs := by
  induction ts with
  | nil => simp
  | cons t ts ih => simp [ih]

/-- The address of the first tree of a list; `d` if there is none. -/
def firstOf : List OTree → Option Nat → Option Nat
  | [], d => d
  | t :: _, _ => some t.addr

/-- The address of the last tree of a list; `d` if there is none. -/
def lastOf : List OTree → Option Nat → Option Nat
  | [], d => d
  | t :: ts, _ => lastOf ts (some t.addr)

@[simp] theorem firstOf_nil (d : Option Nat) : firstOf [] d = d := rfl

@[simp] theorem firstOf_cons (t : OTree) (ts : List OTree) (d : Option Nat) :
    firstOf (t :: ts) d = some t.addr := rfl

@[simp] theorem lastOf_nil (d : Option Nat) : lastOf [] d = d := rfl

@[simp] theorem lastOf_cons (t : OTree) (ts : List OTree) (d : Option Nat) :
    lastOf (t :: ts) d = lastOf ts (some t.addr) := rfl

@[simp] theorem firstOf_append (ts us : List OTree) (d : Option Nat) :
    firstOf (ts ++ us) d = firstOf ts (firstOf us d) := by
  cases ts <;> rfl

@[simp] theorem lastOf_append (ts us : List OTree) (d : Option Nat) :
    lastOf (ts ++ us) d = lastOf us (lastOf ts d) := by
  induction ts generalizing d with
  | nil => rfl
  | cons t ts ih => exact ih _

theorem firstOf_eq_none {ts : List OTree} : firstOf ts none = none ↔ ts = [] := by
  cases ts <;> simp

theorem lastOf_eq_none {ts : List OTree} : lastOf ts none = none ↔ ts = [] := by
  rcases List.eq_nil_or_concat ts with rfl | ⟨us, t, rfl⟩ <;> simp

theorem firstOf_eq (ts : List OTree) : firstOf ts none = (ts.map addr).head? := by
  cases ts <;> rfl

theorem lastOf_eq (ts : List OTree) (d : Option Nat) : lastOf ts d = (ts.map addr).getLast?.or d := by
  induction ts generalizing d with
  | nil => rfl
  | cons t ts ih =>
    rw [lastOf_cons, ih]
    cases ts with
    | nil => rfl
    | cons u us => simp [List.getLast?_cons]

theorem firstOf_insert (ts us : List OTree) (t : OTree) : firstOf (ts ++ t :: us) none =
    if lastOf ts none = none then some t.addr else firstOf (ts ++ us) none := by
  by_cases h : ts = []
  · rw [if_pos (lastOf_eq_none.2 h), h]
    rfl
  · rw [if_neg (mt lastOf_eq_none.1 h)]
    cases ts with
    | nil => exact absurd rfl h
    | cons => rfl

theorem lastOf_insert (ts us : List OTree) (t : OTree) : lastOf (ts ++ t :: us) none =
    if firstOf us none = none then some t.addr else lastOf (ts ++ us) none := by
  cases us with
  | nil => simp
  | cons u us => simp

theorem firstOf_mem {ts : List OTree} {a : Nat} (h : firstOf ts none = some a) : a ∈ addrsList ts := by
  cases ts with
  | nil => cases h
  | cons t ts =>
    cases h
    rw [addrsList_cons]
    exact List.mem_append_left _ t.addr_mem

theorem lastOf_mem {ts : List OTree} {a : Nat} (h : lastOf ts none = some a) : a ∈ addrsList ts := by
  rcases List.eq_nil_or_concat ts with rfl | ⟨us, t, rfl⟩
  · cases h
  · simp only [List.concat_eq_append, lastOf_append, lastOf_cons, lastOf_nil] at h
    cases h
    simp [t.addr_mem]

mutual

/-- The nodes of the tree have its links, and the root these links to the outside. -/
def Linked (ℓ : Nat → Option Links) (parent prev next : Option Nat) : OTree → Prop
  | node a ts =>
    ℓ a = some ⟨parent, next, firstOf ts none, prev, lastOf ts none⟩ ∧ Chain ℓ (some a) none none ts

/-- The trees of a child list, from behind `prev` to in front of `next`. -/
def Chain (ℓ : Nat → Option Links) (parent prev next : Option Nat) : List OTree → Prop
  | [] => True
  | t :: ts => Linked ℓ parent prev (firstOf ts next) t ∧ Chain ℓ parent (some t.addr) next ts

end

variable {ℓ ℓ' : Nat → Option Links} {parent prev next : Option Nat} {a : Nat} {t : OTree}
  {ts us : List OTree}

theorem linked_node : Linked ℓ parent prev next (node a ts) ↔
    ℓ a = some ⟨parent, next, firstOf ts none, prev, lastOf ts none⟩ ∧
      Chain ℓ (some a) none none ts := by
  rw [Linked]

@[simp] theorem chain_nil : Chain ℓ parent prev next [] := by
  rw [Chain]
  trivial

theorem chain_cons : Chain ℓ parent prev next (t :: ts) ↔
    Linked ℓ parent prev (firstOf ts next) t ∧ Chain ℓ parent (some t.addr) next ts := by
  rw [Chain]

/-- A child list can be cut anywhere. -/
theorem chain_append : Chain ℓ parent prev next (ts ++ us) ↔
    Chain ℓ parent prev (firstOf us next) ts ∧ Chain ℓ parent (lastOf ts prev) next us := by
  induction ts generalizing prev with
  | nil => simp
  | cons t ts ih =>
    simp only [List.cons_append, chain_cons, ih, firstOf_append, lastOf_cons, and_assoc]

/-- The links of the root to the outside. -/
theorem Linked.root (h : Linked ℓ parent prev next t) :
    ∃ k, ℓ t.addr = some k ∧ k.parent = parent ∧ k.prev = prev ∧ k.next = next := by
  cases t
  exact ⟨_, (linked_node.1 h).1, rfl, rfl, rfl⟩

/-- The links of a tree in a child list are to its neighbours. -/
theorem Chain.get (h : Chain ℓ parent prev next ts) (i : Nat) (hi : i < ts.length) :
    ∃ k, ℓ ts[i].addr = some k ∧ k.parent = parent ∧ k.next = (ts.map addr)[i + 1]?.or next ∧
      k.prev = if i = 0 then prev else (ts.map addr)[i - 1]? := by
  induction ts generalizing prev i with
  | nil => exact absurd hi (Nat.not_lt_zero i)
  | cons t ts ih =>
    rw [chain_cons] at h
    cases i with
    | zero =>
      obtain ⟨k, hk, h1, h2, h3⟩ := h.1.root
      refine ⟨k, hk, h1, h3.trans ?_, h2⟩
      cases ts <;> rfl
    | succ i =>
      obtain ⟨k, hk, h1, h2, h3⟩ := ih h.2 i (by simpa using hi)
      refine ⟨k, hk, h1, h2, h3.trans ?_⟩
      cases i <;> rfl

/-- Every tree of a child list is linked. -/
theorem Chain.mem (h : Chain ℓ parent prev next ts) (ht : t ∈ ts) :
    ∃ prev next, Linked ℓ parent prev next t := by
  induction ts generalizing prev with
  | nil => cases ht
  | cons u ts ih =>
    rw [chain_cons] at h
    rcases List.mem_cons.1 ht with rfl | ht
    · exact ⟨_, _, h.1⟩
    · exact ih h.2 ht

theorem nodup_mem (hn : (addrsList ts).Nodup) (ht : t ∈ ts) : t.addrs.Nodup := by
  induction ts with
  | nil => cases ht
  | cons u ts ih =>
    rw [addrsList_cons] at hn
    obtain ⟨h1, h2, -⟩ := List.nodup_append.1 hn
    rcases List.mem_cons.1 ht with rfl | ht
    · exact h1
    · exact ih h2 ht

/-! ## What the links depend on -/

mutual

theorem linked_congr {parent prev next : Option Nat} : ∀ {t : OTree},
    (∀ x ∈ t.addrs, ℓ' x = ℓ x) → Linked ℓ parent prev next t → Linked ℓ' parent prev next t
  | node a ts, hx, h => by
    rw [linked_node] at h ⊢
    rw [addrs_node] at hx
    exact ⟨(hx a List.mem_cons_self).trans h.1,
      chain_congr (fun x hm => hx x (List.mem_cons_of_mem a hm)) h.2⟩

theorem chain_congr {parent prev next : Option Nat} : ∀ {ts : List OTree},
    (∀ x ∈ addrsList ts, ℓ' x = ℓ x) → Chain ℓ parent prev next ts → Chain ℓ' parent prev next ts
  | [], _, _ => chain_nil
  | t :: ts, hx, h => by
    rw [chain_cons] at h ⊢
    rw [addrsList_cons] at hx
    exact ⟨linked_congr (fun x hm => hx x (List.mem_append_left _ hm)) h.1,
      chain_congr (fun x hm => hx x (List.mem_append_right _ hm)) h.2⟩

end

mutual

/-- Every address of a tree has links. -/
theorem Linked.live {parent prev next : Option Nat} : ∀ {t : OTree},
    Linked ℓ parent prev next t → ∀ x ∈ t.addrs, ∃ k, ℓ x = some k
  | node a ts, h, x, hx => by
    rw [linked_node] at h
    rw [addrs_node] at hx
    rcases List.mem_cons.1 hx with rfl | hx
    · exact ⟨_, h.1⟩
    · exact Chain.live h.2 x hx

theorem Chain.live {parent prev next : Option Nat} : ∀ {ts : List OTree},
    Chain ℓ parent prev next ts → ∀ x ∈ addrsList ts, ∃ k, ℓ x = some k
  | [], _, x, hx => by simp at hx
  | t :: ts, h, x, hx => by
    rw [chain_cons] at h
    rw [addrsList_cons, List.mem_append] at hx
    exact hx.elim (Linked.live h.1 x) (Chain.live h.2 x)

end

mutual

/-- Every node of a tree is the root of a linked tree of its own. -/
theorem Linked.sub {parent prev next : Option Nat} {a : Nat} : ∀ {t : OTree},
    Linked ℓ parent prev next t → a ∈ t.addrs →
      ∃ ks parent' prev' next', Linked ℓ parent' prev' next' (node a ks) ∧
        (node a ks).addrs.Sublist t.addrs
  | node b ts, h, ha => by
    rw [addrs_node] at ha
    rcases List.mem_cons.1 ha with rfl | ha
    · exact ⟨_, _, _, _, h, List.Sublist.refl _⟩
    · obtain ⟨ks, p, v, n, hl, hs⟩ := Chain.sub (linked_node.1 h).2 ha
      refine ⟨ks, p, v, n, hl, ?_⟩
      rw [addrs_node b]
      exact hs.cons b

theorem Chain.sub {parent prev next : Option Nat} {a : Nat} : ∀ {ts : List OTree},
    Chain ℓ parent prev next ts → a ∈ addrsList ts →
      ∃ ks parent' prev' next', Linked ℓ parent' prev' next' (node a ks) ∧
        (node a ks).addrs.Sublist (addrsList ts)
  | [], _, ha => by simp at ha
  | t :: ts, h, ha => by
    rw [chain_cons] at h
    rw [addrsList_cons] at ha ⊢
    rcases List.mem_append.1 ha with ha | ha
    · obtain ⟨ks, p, v, n, hl, hs⟩ := Linked.sub h.1 ha
      exact ⟨ks, p, v, n, hl, hs.trans (List.sublist_append_left _ _)⟩
    · obtain ⟨ks, p, v, n, hl, hs⟩ := Chain.sub h.2 ha
      exact ⟨ks, p, v, n, hl, hs.trans (List.sublist_append_right _ _)⟩

end

/-! ## What the links lead to -/

mutual

/-- The links down and to the right lead to nodes of the tree, but for that of the root to the right. -/
theorem Linked.closed {parent prev next : Option Nat} : ∀ {t : OTree},
    Linked ℓ parent prev next t → ∀ x ∈ t.addrs, ∀ k, ℓ x = some k → ∀ y,
      (k.first = some y → y ∈ t.addrs) ∧ (k.next = some y → y ∈ t.addrs ∨ next = some y)
  | node a ts, h, x, hx, k, hk, y => by
    rw [linked_node] at h
    rw [addrs_node] at hx ⊢
    rcases List.mem_cons.1 hx with rfl | hx
    · cases hk.symm.trans h.1
      exact ⟨fun hy => List.mem_cons_of_mem _ (firstOf_mem hy), .inr⟩
    · obtain ⟨hfirst, hnext⟩ := Chain.closed h.2 x hx k hk y
      exact ⟨fun hy => List.mem_cons_of_mem _ (hfirst hy),
        fun hy => (hnext hy).imp (List.mem_cons_of_mem _) nofun⟩

theorem Chain.closed {parent prev next : Option Nat} : ∀ {ts : List OTree},
    Chain ℓ parent prev next ts → ∀ x ∈ addrsList ts, ∀ k, ℓ x = some k → ∀ y,
      (k.first = some y → y ∈ addrsList ts) ∧ (k.next = some y → y ∈ addrsList ts ∨ next = some y)
  | [], _, x, hx, _, _, _ => by simp at hx
  | t :: ts, h, x, hx, k, hk, y => by
    rw [chain_cons] at h
    rw [addrsList_cons] at hx ⊢
    rcases List.mem_append.1 hx with hx | hx
    · obtain ⟨hfirst, hnext⟩ := Linked.closed h.1 x hx k hk y
      refine ⟨fun hy => List.mem_append_left _ (hfirst hy), fun hy => ?_⟩
      rcases hnext hy with hy | hy
      · exact .inl (List.mem_append_left _ hy)
      · cases ts with
        | nil => exact .inr hy
        | cons u us => exact .inl (List.mem_append_right _ (firstOf_mem hy))
    · obtain ⟨hfirst, hnext⟩ := Chain.closed h.2 x hx k hk y
      exact ⟨fun hy => List.mem_append_right _ (hfirst hy),
        fun hy => (hnext hy).imp (List.mem_append_right _) id⟩

end

mutual

/-- The links say which tree stands below a root. -/
theorem linked_unique {parent prev next parent' prev' next' : Option Nat} : ∀ {t t' : OTree},
    Linked ℓ parent prev next t → Linked ℓ parent' prev' next' t' → t.addr = t'.addr → t = t'
  | node a ts, node b us, h, h', hab => by
    rw [addr_node, addr_node] at hab
    subst hab
    rw [linked_node] at h h'
    have hk := Option.some.inj (h.1.symm.trans h'.1)
    rw [chain_unique h.2 h'.2 (congrArg Links.first hk)]

theorem chain_unique {parent prev parent' prev' : Option Nat} : ∀ {ts us : List OTree},
    Chain ℓ parent prev none ts → Chain ℓ parent' prev' none us → firstOf ts none = firstOf us none → ts = us
  | [], [], _, _, _ => rfl
  | [], u :: us, _, _, he => by simp at he
  | t :: ts, [], _, _, he => by simp at he
  | t :: ts, u :: us, h, h', he => by
    rw [chain_cons] at h h'
    have haddr : t.addr = u.addr := by simpa using he
    obtain ⟨k, hk, -, -, hn⟩ := h.1.root
    obtain ⟨k', hk', -, -, hn'⟩ := h'.1.root
    obtain rfl := Option.some.inj (hk.symm.trans (haddr ▸ hk'))
    rw [linked_unique h.1 h'.1 haddr, chain_unique h.2 h'.2 (hn.symm.trans hn')]

end

section

variable {R : Nat → Prop}
  (hclosed : ∀ x k y, R x → ℓ x = some k → k.first = some y ∨ k.next = some y → R y)
include hclosed

mutual

/-- What holds of the root and along the links down and to the right holds of every node. -/
theorem Linked.reach {parent prev next : Option Nat} : ∀ {t : OTree},
    Linked ℓ parent prev next t → R t.addr → ∀ x ∈ t.addrs, R x
  | node a ts, h, hr, x, hx => by
    rw [linked_node] at h
    rw [addrs_node] at hx
    rcases List.mem_cons.1 hx with rfl | hx
    · exact hr
    · exact Chain.reach h.2 (fun y hy => hclosed _ _ y hr h.1 (.inl hy)) x hx

theorem Chain.reach {parent prev next : Option Nat} : ∀ {ts : List OTree},
    Chain ℓ parent prev next ts → (∀ y, firstOf ts none = some y → R y) → ∀ x ∈ addrsList ts, R x
  | [], _, _, x, hx => by simp at hx
  | t :: ts, h, hr, x, hx => by
    rw [chain_cons] at h
    rw [addrsList_cons] at hx
    have hroot := hr t.addr rfl
    rcases List.mem_append.1 hx with hx | hx
    · exact Linked.reach h.1 hroot x hx
    · refine Chain.reach h.2 (fun y hy => ?_) x hx
      obtain ⟨k, hk, -, -, hn⟩ := h.1.root
      refine hclosed _ k y hroot hk (.inr (hn.trans ?_))
      cases ts with
      | nil => cases hy
      | cons => exact hy

end

end

/-- The links of the root to the outside can be replaced. -/
theorem Linked.reroot {parent' prev' next' : Option Nat} (h : Linked ℓ parent prev next t)
    (hroot : ∀ k, ℓ t.addr = some k → k.parent = parent → k.prev = prev → k.next = next →
      ℓ' t.addr = some { k with parent := parent', prev := prev', next := next' })
    (hkids : ∀ x ∈ addrsList t.kids, ℓ' x = ℓ x) : Linked ℓ' parent' prev' next' t := by
  cases t with
  | node a ts =>
    rw [linked_node] at h ⊢
    exact ⟨hroot _ h.1 rfl rfl rfl, chain_congr hkids h.2⟩

/-! ## A tree without what is below a node -/

mutual

/-- The tree without what is below the node `a`. -/
def prune (a : Nat) : OTree → OTree
  | node b ts => if b = a then node b [] else node b (pruneList a ts)

def pruneList (a : Nat) : List OTree → List OTree
  | [] => []
  | t :: ts => prune a t :: pruneList a ts

end

theorem prune_node (b : Nat) : (node b ts).prune a = if b = a then node b [] else node b (pruneList a ts) := by
  rw [prune]

mutual

/-- Where nothing is below `a` the tree is the same. -/
theorem prune_eq_self {parent prev next : Option Nat} {k : Links} (hk : ℓ a = some k)
    (hnone : k.first = none) : ∀ {t : OTree}, Linked ℓ parent prev next t → t.prune a = t
  | node b ts, h => by
    rw [linked_node] at h
    rw [prune_node]
    split
    · next hb =>
      cases hk.symm.trans (hb ▸ h.1)
      rw [firstOf_eq_none.1 hnone]
    · rw [pruneList_eq_self hk hnone h.2]

theorem pruneList_eq_self {parent prev next : Option Nat} {k : Links} (hk : ℓ a = some k)
    (hnone : k.first = none) : ∀ {ts : List OTree}, Chain ℓ parent prev next ts → pruneList a ts = ts
  | [], _ => by rw [pruneList]
  | t :: ts, h => by
    rw [chain_cons] at h
    rw [pruneList, prune_eq_self hk hnone h.1, pruneList_eq_self hk hnone h.2]

end

mutual

/-- When the pruned tree is linked, nothing is below `a`. -/
theorem prune_leaf {parent prev next : Option Nat} {k : Links} (hk : ℓ a = some k) : ∀ {t : OTree},
    Linked ℓ parent prev next (t.prune a) → a ∈ t.addrs → k.first = none
  | node b ts, h, ha => by
    rw [prune_node] at h
    rw [addrs_node] at ha
    split at h
    · next hb =>
      rw [linked_node, hb, hk, Option.some.injEq] at h
      exact congrArg Links.first h.1
    · next hb => exact pruneList_leaf hk (linked_node.1 h).2 ((List.mem_cons.1 ha).resolve_left (Ne.symm hb))

theorem pruneList_leaf {parent prev next : Option Nat} {k : Links} (hk : ℓ a = some k) : ∀ {ts : List OTree},
    Chain ℓ parent prev next (pruneList a ts) → a ∈ addrsList ts → k.first = none
  | [], _, ha => by simp at ha
  | t :: ts, h, ha => by
    rw [pruneList, chain_cons] at h
    rw [addrsList_cons, List.mem_append] at ha
    exact ha.elim (prune_leaf hk h.1) (pruneList_leaf hk h.2)

end

/-! ## Hanging a tree into a child list -/

/-- The links after the detached root `r` was hung under `p` between `prev` and `next`. -/
def hang (ℓ : Nat → Option Links) (p r : Nat) (prev next : Option Nat) (x : Nat) : Option Links :=
  if x = r then (ℓ x).map fun k => { k with parent := some p, prev, next }
  else if x = p then
    (ℓ x).map fun k =>
      { k with
        first := if prev = none then some r else k.first
        last := if next = none then some r else k.last }
  else if some x = prev then (ℓ x).map fun k => { k with next := some r }
  else if some x = next then (ℓ x).map fun k => { k with prev := some r }
  else ℓ x

/-- The links after the child `r` of `p` was taken out from between `prev` and `next`. -/
def unhang (ℓ : Nat → Option Links) (p r : Nat) (prev next : Option Nat) (x : Nat) : Option Links :=
  if x = r then (ℓ x).map fun k => { k with parent := none, prev := none, next := none }
  else if x = p then
    (ℓ x).map fun k =>
      { k with
        first := if prev = none then next else k.first
        last := if next = none then prev else k.last }
  else if some x = prev then (ℓ x).map fun k => { k with next }
  else if some x = next then (ℓ x).map fun k => { k with prev }
  else ℓ x

theorem addrs_eq (t : OTree) : t.addrs = t.addr :: addrsList t.kids := by
  cases t
  simp [kids]

/-- The last tree of a chain gets another successor. -/
theorem Chain.setNext {next' : Option Nat} (h : Chain ℓ parent prev next ts)
    (hn : (addrsList ts).Nodup)
    (hlast : ∀ x k, lastOf ts none = some x → ℓ x = some k → ℓ' x = some { k with next := next' })
    (hother : ∀ x ∈ addrsList ts, lastOf ts none ≠ some x → ℓ' x = ℓ x) :
    Chain ℓ' parent prev next' ts := by
  rcases List.eq_nil_or_concat ts with rfl | ⟨us, t, rfl⟩
  · exact chain_nil
  simp only [List.concat_eq_append, chain_append, chain_cons, firstOf_nil, firstOf_cons, chain_nil,
    and_true, addrsList_append, addrsList_cons, addrsList_nil, List.append_nil, lastOf_append,
    lastOf_cons, lastOf_nil, ne_eq, Option.some.injEq, List.mem_append, addrs_eq t] at h hn hlast hother ⊢
  obtain ⟨hn1, hn2, hdisj⟩ := List.nodup_append.1 hn
  refine ⟨chain_congr (fun x hx => hother x (.inl hx) ?_) h.1,
    h.2.reroot (fun k hk hp hv _ => ?_) fun x hx => hother x (.inr (List.mem_cons_of_mem _ hx)) ?_⟩
  · exact fun he => hdisj x hx t.addr List.mem_cons_self he.symm
  · rw [hlast _ k rfl hk, ← hp, ← hv]
  · rintro rfl
    exact (List.nodup_cons.1 hn2).1 hx

/-- The first tree of a chain gets another predecessor. -/
theorem Chain.setPrev {prev' : Option Nat} (h : Chain ℓ parent prev next ts)
    (hn : (addrsList ts).Nodup)
    (hfirst : ∀ x k, firstOf ts none = some x → ℓ x = some k → ℓ' x = some { k with prev := prev' })
    (hother : ∀ x ∈ addrsList ts, firstOf ts none ≠ some x → ℓ' x = ℓ x) :
    Chain ℓ' parent prev' next ts := by
  cases ts with
  | nil => exact chain_nil
  | cons t ts =>
    simp only [chain_cons, addrsList_cons, firstOf_cons, ne_eq, Option.some.injEq,
      List.mem_append, addrs_eq t] at h hn hfirst hother ⊢
    obtain ⟨hn1, hn2, hdisj⟩ := List.nodup_append.1 hn
    refine ⟨h.1.reroot (fun k hk hp _ hx => ?_)
      fun x hx => hother x (.inl (List.mem_cons_of_mem _ hx)) ?_,
      chain_congr (fun x hx => hother x (.inr hx) ?_) h.2⟩
    · rw [hfirst _ k rfl hk, ← hp, ← hx]
    · rintro rfl
      exact (List.nodup_cons.1 hn1).1 hx
    · exact fun he => hdisj t.addr List.mem_cons_self x hx he

/-- **Hanging a detached tree into a child list** puts it between the two parts of the list. -/
theorem Linked.hang {p : Nat} (h : Linked ℓ parent prev next (node p (ts ++ us)))
    (ht : Linked ℓ none none none t)
    (hn : ((node p (ts ++ us)).addrs ++ t.addrs).Nodup) :
    Linked (hang ℓ p t.addr (lastOf ts none) (firstOf us none)) parent prev next
      (node p (ts ++ t :: us)) := by
  have hr : t.addr ∈ t.addrs := t.addr_mem
  rw [addrs_node, addrsList_append] at hn
  obtain ⟨hn1, hn2, hdisj⟩ := List.nodup_append.1 hn
  obtain ⟨hp, hn1⟩ := List.nodup_cons.1 hn1
  obtain ⟨hts, hus, hmid⟩ := List.nodup_append.1 hn1
  have hrp : p ≠ t.addr := hdisj p List.mem_cons_self _ hr
  have hpmem : ∀ x ∈ addrsList ts ++ addrsList us, x ≠ p := fun x hx he => hp (he ▸ hx)
  have hrmem : ∀ x ∈ addrsList ts ++ addrsList us, x ≠ t.addr := fun x hx =>
    hdisj x (List.mem_cons_of_mem _ hx) _ hr
  rw [linked_node, chain_append] at h
  obtain ⟨hroot, hchain1, hchain2⟩ := h
  rw [linked_node, chain_append, firstOf_cons, chain_cons]
  refine ⟨?_, hchain1.setNext hts ?_ ?_, ht.reroot ?_ ?_, hchain2.setPrev hus ?_ ?_⟩
  · rw [OTree.hang, if_neg hrp, if_pos rfl, hroot, firstOf_insert, lastOf_insert]
    rfl
  · intro x k hx hk
    have hm := List.mem_append_left (addrsList us) (lastOf_mem hx)
    rw [OTree.hang, if_neg (hrmem x hm), if_neg (hpmem x hm), if_pos hx.symm, hk]
    rfl
  · intro x hx hlast
    have hm := List.mem_append_left (addrsList us) hx
    have hfirst : some x ≠ firstOf us none := fun he => hmid x hx x (firstOf_mem he.symm) rfl
    rw [OTree.hang, if_neg (hrmem x hm), if_neg (hpmem x hm), if_neg hlast.symm, if_neg hfirst]
  · intro k hk _ _ _
    rw [OTree.hang, if_pos rfl, hk]
    rfl
  · intro x hx
    rw [addrs_eq t] at hn2 hdisj
    have hxr : x ≠ t.addr := fun he => (List.nodup_cons.1 hn2).1 (he ▸ hx)
    have hm : ∀ y ∈ p :: (addrsList ts ++ addrsList us), x ≠ y := fun y hy he =>
      hdisj y hy x (List.mem_cons_of_mem _ hx) he.symm
    have hlast : some x ≠ lastOf ts none := fun he =>
      hm x (List.mem_cons_of_mem _ (List.mem_append_left _ (lastOf_mem he.symm))) rfl
    have hfirst : some x ≠ firstOf us none := fun he =>
      hm x (List.mem_cons_of_mem _ (List.mem_append_right _ (firstOf_mem he.symm))) rfl
    rw [OTree.hang, if_neg hxr, if_neg (hm p List.mem_cons_self), if_neg hlast, if_neg hfirst]
  · intro x k hx hk
    have hm := List.mem_append_right (addrsList ts) (firstOf_mem hx)
    have hlast : some x ≠ lastOf ts none := fun he =>
      hmid x (lastOf_mem he.symm) x (firstOf_mem hx) rfl
    rw [OTree.hang, if_neg (hrmem x hm), if_neg (hpmem x hm), if_neg hlast, if_pos hx.symm, hk]
    rfl
  · intro x hx hfirst
    have hm := List.mem_append_right (addrsList ts) hx
    have hlast : some x ≠ lastOf ts none := fun he => hmid x (lastOf_mem he.symm) x hx rfl
    rw [OTree.hang, if_neg (hrmem x hm), if_neg (hpmem x hm), if_neg hlast, if_neg hfirst.symm]

end OTree

end Lib
