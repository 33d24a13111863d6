import JsonDom.Lib.ChildLists
import JsonDom.Proof.Node

/-!
# Nodes as a forest

`Represents h F`: the links of the nodes in the memory `h` are those of the forest `F`. Adopting,
emancipating and creating a node do to the memory what `Forest.hang`, `Forest.unhang` and `Forest.add`
do to the forest.
-/

namespace JsonDom

open Lib

variable {w : World} {h h' : Store Cell} {F F' : Forest} {r p x : Addr}

/-- The nodes in memory are those of the forest, with its links. -/
def Represents (h : Store Cell) (F : Forest) : Prop := ∀ x, links h x = F.links x

theorem Represents.node (hr : Represents h F) (hx : x ∈ F.nodes) :
    ∃ n, h.get? x = some (.node n) ∧ n.parent = F.up x ∧
      n.nextSibling = ((F.up x).bind fun p => nextIn (F.kids p) x) ∧
      n.firstChild = (F.kids x).head? ∧
      n.prevSibling = ((F.up x).bind fun p => prevIn (F.kids p) x) ∧
      n.lastChild = (F.kids x).getLast? := by
  have hlinks := hr x
  rw [Forest.links_mem hx] at hlinks
  obtain ⟨n, hn, hk⟩ := links_some hlinks
  rw [JdNode.links, Links.mk.injEq] at hk
  exact ⟨n, hn, hk⟩

/-- New links for the nodes there are. -/
theorem Represents.relink {ℓ : Addr → Option Links} (hr : Represents h F) (hrel : Relinked h h' ℓ)
    (hnodes : F'.nodes = F.nodes) (hlinks : ∀ x, F'.links x = ℓ x) : Represents h' F' := by
  intro x
  rw [hlinks]
  apply hrel.links_eq
  rw [← hlinks, hr x]
  unfold Forest.links
  rw [hnodes]
  by_cases hx : x ∈ F.nodes
  · rw [if_pos hx, if_pos hx]
    rfl
  · rw [if_neg hx, if_neg hx]

/-! ## Adopting -/

/-- `jd_Node_adopt` changes links only, to those of the forest with a root hung under a node. -/
theorem adopt_relinked {before : Ptr} (hr : Represents w.heap F) (hc : F.CanHang r p before) :
    ∃ h' ℓ, jdNodeAdopt (some r) (some p) before w = .ok ((), { w with heap := h' }) ∧
      Represents h' (F.hang r p before hc) ∧ Relinked w.heap h' ℓ := by
  obtain ⟨as, us, hkids, hins, hhead⟩ := insertBefore_split (r := r) hc.before
  have hnd : (as ++ us).Nodup := hkids ▸ F.nodup p
  have hup : ∀ y ∈ as ++ us, F.up y = some p := fun y hy => (F.mem_kids y p).1 (hkids ▸ hy)
  have hne : ∀ y ∈ as ++ us, y ≠ r ∧ y ≠ p := by
    intro y hy
    refine ⟨fun he => ?_, fun he => ?_⟩
    · have := hup y hy
      rw [he, hc.root] at this
      cases this
    · exact F.not_mem_self p (he ▸ hup y hy)
  obtain ⟨rn, hrn, hr1, hr2, -, hr3, -⟩ := hr.node hc.node
  obtain ⟨pn, hpn, -, -, -, -, hlast⟩ := hr.node hc.parent
  rw [hc.root] at hr1 hr2 hr3
  have hrp : r ≠ p := fun he => hc.outside (he ▸ .refl)
  have hend : before = none → as.getLast? = pn.lastChild := by
    intro hb
    rw [hlast, hkids, List.head?_eq_none_iff.1 (hhead.trans hb), List.append_nil]
  have hnext : ∀ b, before = some b → b ≠ r ∧ b ≠ p ∧
      ∃ bn, w.heap.get? b = some (.node bn) ∧ bn.parent = some p ∧ as.getLast? = bn.prevSibling := by
    intro b hb
    have hmem : b ∈ as ++ us := List.mem_append_right _ (List.mem_of_mem_head? (hhead.trans hb))
    obtain ⟨bn, hbn, hb1, -, -, hb2, -⟩ := hr.node (F.live b p (hup b hmem)).1
    rw [hup b hmem] at hb1 hb2
    refine ⟨(hne b hmem).1, (hne b hmem).2, bn, hbn, hb1, ?_⟩
    rw [hb2, Option.bind_some, hkids, prevIn_head hnd (hhead.trans hb)]
  have hprev : ∀ l, as.getLast? = some l → l ≠ r ∧ l ≠ p ∧ before ≠ some l ∧
      ∃ ln, w.heap.get? l = some (.node ln) := by
    intro l hl
    have hmem : l ∈ as := List.mem_of_getLast? hl
    obtain ⟨ln, hln, -⟩ := hr.node (F.live l p (hup l (List.mem_append_left _ hmem))).1
    obtain ⟨hlr, hlp⟩ := hne l (List.mem_append_left _ hmem)
    refine ⟨hlr, hlp, fun hb => ?_, ln, hln⟩
    exact (List.nodup_append.1 hnd).2.2 l hmem l (List.mem_of_mem_head? (hhead.trans hb)) rfl
  obtain ⟨h', hrun, hrel⟩ := adopt_run hrn ⟨hr1, hr3, hr2⟩ hpn hrp hend hnext hprev
  refine ⟨h', _, hrun, hr.relink hrel rfl fun x => ?_, hrel⟩
  rw [Forest.links_hang hc hkids hins, hhead, show links w.heap = F.links from funext hr]

/-- **`jd_Node_adopt` hangs a root under a node** in front of `before`, or as its last child. -/
theorem adopt_represents {before : Ptr} (hr : Represents w.heap F) (hc : F.CanHang r p before) :
    ∃ h', jdNodeAdopt (some r) (some p) before w = .ok ((), { w with heap := h' }) ∧
      Represents h' (F.hang r p before hc) := by
  obtain ⟨h', ℓ, hrun, hrep, -⟩ := adopt_relinked hr hc
  exact ⟨h', hrun, hrep⟩

/-! ## Emancipating -/

/-- The links after an assignment to the node of `q`, under a condition. -/
def assign (c : Prop) [Decidable c] (q : Ptr) (g : Links → Links) (ℓ : Addr → Option Links) (x : Addr) :
    Option Links :=
  if c ∧ some x = q then (ℓ x).map g else ℓ x

theorem assign_ne {c : Prop} [Decidable c] {q : Ptr} {g : Links → Links} {ℓ : Addr → Option Links}
    (hx : some x ≠ q) : assign c q g ℓ x = ℓ x := if_neg fun h => hx h.2

theorem Relinked.modifyWhen {ℓ : Addr → Option Links} (hr : Relinked h h' ℓ) (w : World) {c : Prop}
    [Decidable c] {q : Ptr} (f : JdNode → JdNode) (g : Links → Links)
    (hq : c → ∃ a n k, q = some a ∧ h.get? a = some (.node n) ∧ ℓ a = some k)
    (hf : ∀ n k, f (JdNode.withLinks n k) = n.withLinks (g k)) :
    ∃ h'', (∀ {β : Type} (rest : Unit → M β), (if c then do
          let r ← modifyNode q f
          rest r
        else rest ()) { w with heap := h' } = rest () { w with heap := h'' }) ∧
      Relinked h h'' (assign c q g ℓ) := by
  by_cases hc : c
  · obtain ⟨a, n, k, rfl, hn, hk⟩ := hq hc
    obtain ⟨h'', hrun, hrel⟩ := hr.modify w f g hn hk (hf n k)
    refine ⟨h'', fun rest => ?_, hrel.congr fun x => ?_⟩
    · rw [if_pos hc]
      exact M.bind_ok hrun
    · by_cases hx : x = a
      · rw [hx, assign, if_pos ⟨hc, rfl⟩, Function.update_self, hk, Option.map_some]
      · rw [assign_ne (fun he => hx (Option.some.inj he)), Function.update_of_ne hx]
  · refine ⟨h', fun rest => ?_, hr.congr fun x => ?_⟩
    · rw [if_neg hc]
    · rw [assign, if_neg fun hx => hc hx.1]

/-- The links of the child `r` of `p` after it was taken out from between its neighbours. -/
theorem emancipate_run {rn pn : JdNode} {prev next : Ptr} (hr : w.heap.get? r = some (.node rn))
    (hparent : rn.parent = some p) (hrnext : rn.nextSibling = next) (hrprev : rn.prevSibling = prev)
    (hp : w.heap.get? p = some (.node pn)) (hrp : r ≠ p)
    (hfirst : pn.firstChild = some r ↔ prev = none) (hlast : pn.lastChild = some r ↔ next = none)
    (hnext : ∀ b, next = some b → b ≠ r ∧ b ≠ p ∧ ∃ bn, w.heap.get? b = some (.node bn))
    (hprev : ∀ l, prev = some l → l ≠ r ∧ l ≠ p ∧ next ≠ some l ∧ ∃ ln, w.heap.get? l = some (.node ln)) :
    ∃ h', jdNodeEmancipate (some r) w = .ok ((), { w with heap := h' }) ∧
      Relinked w.heap h' (OTree.unhang (links w.heap) p r prev next) := by
  have hlinks : ∀ {x n}, w.heap.get? x = some (.node n) → links w.heap x = some n.links := links_of
  -- the ends of the parent's list
  obtain ⟨h1, hm1, R1⟩ := (Relinked.refl w.heap).modifyWhen w (c := pn.firstChild = some r) (q := some p)
    (fun n => { n with firstChild := next }) (fun k => { k with first := next })
    (fun _ => ⟨p, pn, _, rfl, hp, hlinks hp⟩) fun _ _ => rfl
  obtain ⟨k1, hk1, hk1last⟩ : ∃ k1, assign (pn.firstChild = some r) (some p)
      (fun k => { k with first := next }) (links w.heap) p = some k1 ∧ k1.last = pn.lastChild := by
    unfold assign
    split
    · exact ⟨_, by rw [hlinks hp]; rfl, rfl⟩
    · exact ⟨_, hlinks hp, rfl⟩
  obtain ⟨h2, hm2, R2⟩ := R1.modifyWhen w (c := (pn.withLinks k1).lastChild = some r) (q := some p)
    (fun n => { n with lastChild := prev }) (fun k => { k with last := prev })
    (fun _ => ⟨p, pn, _, rfl, hp, hk1⟩) fun _ _ => rfl
  have h2of : ∀ {x n}, x ≠ p → w.heap.get? x = some (.node n) →
      assign ((pn.withLinks k1).lastChild = some r) (some p) (fun k => { k with last := prev })
        (assign (pn.firstChild = some r) (some p) (fun k => { k with first := next }) (links w.heap)) x =
          some n.links := by
    intro x n hx hn
    have hxp : some x ≠ some p := fun he => hx (Option.some.inj he)
    rw [assign_ne hxp, assign_ne hxp, hlinks hn]
  -- the node and its neighbours
  obtain ⟨h3, hm3, R3⟩ := R2.modify w (fun n => { n with parent := none })
    (fun k => { k with parent := none }) hr (h2of hrp hr) rfl
  obtain ⟨h4, hm4, R4⟩ := R3.modifyWhen w (c := next.isSome = true) (q := next)
    (fun n => { n with prevSibling := prev }) (fun k => { k with prev := prev }) (fun hs => by
      obtain ⟨b, hb⟩ := Option.isSome_iff_exists.1 hs
      obtain ⟨hbr, hbp, bn, hbn⟩ := hnext b hb
      exact ⟨b, bn, bn.links, hb, hbn, (Function.update_of_ne hbr _ _).trans (h2of hbp hbn)⟩) fun _ _ => rfl
  obtain ⟨h5, hm5, R5⟩ := R4.modifyWhen w (c := prev.isSome = true) (q := prev)
    (fun n => { n with nextSibling := next }) (fun k => { k with next := next }) (fun hs => by
      obtain ⟨l, hl⟩ := Option.isSome_iff_exists.1 hs
      obtain ⟨hlr, hlp, hln, ln, hget⟩ := hprev l hl
      refine ⟨l, ln, ln.links, hl, hget, (assign_ne hln.symm).trans ?_⟩
      exact (Function.update_of_ne hlr _ _).trans (h2of hlp hget)) fun _ _ => rfl
  have hnr : some r ≠ next := fun he => (hnext r he.symm).1 rfl
  have hvr : some r ≠ prev := fun he => (hprev r he.symm).1 rfl
  obtain ⟨h6, hm6, R6⟩ := R5.modify w (fun n => { n with nextSibling := none, prevSibling := none })
    (fun k => { k with next := none, prev := none }) hr
    ((assign_ne hvr).trans ((assign_ne hnr).trans (Function.update_self _ _ _))) rfl
  refine ⟨h6, ?_, R6.congr fun x => ?_⟩
  · unfold jdNodeEmancipate
    rw [M.bind_ok (getNode_run w hr), hparent, if_pos (by rfl), M.bind_ok (getNode_run w hp), hrnext, hrprev]
    refine (hm1 _).trans ?_
    rw [M.bind_ok (getNode_run { w with heap := h1 } (R1.node hp hk1))]
    refine (hm2 _).trans ?_
    rw [M.bind_ok hm3]
    refine (hm4 _).trans ((hm5 _).trans ?_)
    exact hm6
  · unfold OTree.unhang
    by_cases hxr : x = r
    · rw [if_pos hxr, hxr, Function.update_self, hlinks hr]
      rfl
    rw [if_neg hxr, Function.update_of_ne hxr]
    by_cases hxp : x = p
    · have hnp : some p ≠ next := fun he => (hnext p he.symm).2.1 rfl
      have hvp : some p ≠ prev := fun he => (hprev p he.symm).2.1 rfl
      rw [if_pos hxp, hxp, assign_ne hvp, assign_ne hnp, Function.update_of_ne (Ne.symm hrp), hlinks hp]
      have hk1last' : (pn.withLinks k1).lastChild = pn.lastChild := hk1last
      simp only [assign, hk1last', hfirst, hlast, and_true, hlinks hp]
      by_cases hv : prev = none <;> by_cases hx : next = none <;> simp [hv, hx, JdNode.links]
    have hsp : some x ≠ some p := fun he => hxp (Option.some.inj he)
    rw [if_neg hxp]
    by_cases hv : some x = prev
    · have hx : some x ≠ next := fun he => (hprev x hv.symm).2.2.1 he.symm
      rw [if_pos hv, assign, if_pos ⟨by rw [← hv]; rfl, hv⟩, assign_ne hx, Function.update_of_ne hxr,
        assign_ne hsp, assign_ne hsp]
    · rw [if_neg hv, assign_ne hv]
      by_cases hx : some x = next
      · rw [if_pos hx, assign, if_pos ⟨by rw [← hx]; rfl, hx⟩, Function.update_of_ne hxr,
          assign_ne hsp, assign_ne hsp]
      · rw [if_neg hx, assign_ne hx, Function.update_of_ne hxr, assign_ne hsp, assign_ne hsp]

/-- `jd_Node_emancipate` changes links only, to those of the forest with the node taken out of its family. -/
theorem emancipate_relinked (hr : Represents w.heap F) (hx : x ∈ F.nodes) :
    ∃ h' ℓ, jdNodeEmancipate (some x) w = .ok ((), { w with heap := h' }) ∧
      Represents h' (F.unhang x) ∧ Relinked w.heap h' ℓ := by
  obtain ⟨n, hn, hparent, hnext, -, hprev, -⟩ := hr.node hx
  cases hup : F.up x with
  | none =>
    refine ⟨w.heap, _, ?_, fun y => ?_, .refl _⟩
    · unfold jdNodeEmancipate
      rw [M.bind_ok (getNode_run w hn), hparent, hup]
      rfl
    · rw [hr y, Forest.links_unhang_root hup]
  | some p =>
    obtain ⟨as, us, hkids⟩ := List.append_of_mem ((F.mem_kids x p).2 hup)
    obtain ⟨hxout, hnd⟩ := List.nodup_cons.1 (List.nodup_middle.1 (hkids ▸ F.nodup p))
    rw [hup, Option.bind_some, hkids, nextIn_insert hnd hxout, if_pos rfl] at hnext
    rw [hup, Option.bind_some, hkids, prevIn_insert hnd hxout, if_pos rfl] at hprev
    obtain ⟨pn, hpn, -, -, hfirst, -, hlast⟩ := hr.node (F.live x p hup).2
    have hmem : ∀ y ∈ as ++ us, y ≠ x ∧ F.up y = some p := by
      intro y hy
      refine ⟨fun he => hxout (he ▸ hy), ?_⟩
      rw [← F.mem_kids, hkids]
      rcases List.mem_append.1 hy with hy | hy
      · exact List.mem_append_left _ hy
      · exact List.mem_append_right _ (List.mem_cons_of_mem _ hy)
    have hnode : ∀ y ∈ as ++ us, y ≠ x ∧ y ≠ p ∧ ∃ yn, w.heap.get? y = some (.node yn) := by
      intro y hy
      obtain ⟨hyx, hyp⟩ := hmem y hy
      obtain ⟨yn, hyn, -⟩ := hr.node (F.live y p hyp).1
      exact ⟨hyx, fun he => F.not_mem_self p (he ▸ hyp), yn, hyn⟩
    have hxp : x ≠ p := fun he => F.not_mem_self p (he ▸ hup)
    have hends : (pn.firstChild = some x ↔ as.getLast? = none) ∧
        (pn.lastChild = some x ↔ us.head? = none) := by
      rw [hfirst, hlast, hkids, head?_insert, getLast?_insert]
      refine ⟨⟨fun h => ?_, fun h => if_pos h⟩, ⟨fun h => ?_, fun h => if_pos h⟩⟩
      · by_contra hne
        rw [if_neg hne] at h
        exact hxout (List.mem_of_mem_head? h)
      · by_contra hne
        rw [if_neg hne] at h
        exact hxout (List.mem_of_getLast? h)
    obtain ⟨h', hrun, hrel⟩ := emancipate_run hn (hparent.trans hup) hnext hprev hpn hxp hends.1 hends.2
      (fun b hb => hnode b (List.mem_append_right _ (List.mem_of_mem_head? hb))) fun l hl => by
        have hlm := List.mem_of_getLast? hl
        obtain ⟨h1, h2, h3⟩ := hnode l (List.mem_append_left _ hlm)
        refine ⟨h1, h2, fun hb => ?_, h3⟩
        exact (List.nodup_append.1 hnd).2.2 l hlm l (List.mem_of_mem_head? hb) rfl
    refine ⟨h', _, hrun, hr.relink hrel rfl fun y => ?_, hrel⟩
    rw [Forest.links_unhang hup hkids, show links w.heap = F.links from funext hr]

/-- **`jd_Node_emancipate` takes a node out of its family**; types and payloads stay. -/
theorem emancipate_represents (hr : Represents w.heap F) (hx : x ∈ F.nodes) :
    ∃ h', jdNodeEmancipate (some x) w = .ok ((), { w with heap := h' }) ∧
      Represents h' (F.unhang x) ∧ Stays w.heap h' := by
  obtain ⟨h', ℓ, hrun, hrep, hrel⟩ := emancipate_relinked hr hx
  exact ⟨h', hrun, hrep, hrel.stays⟩

/-! ## Creating -/

/-- The next address is none of a node. -/
theorem Represents.fresh (hr : Represents w.heap F) : w.heap.size ∉ F.nodes := by
  intro hm
  obtain ⟨n, hn, -⟩ := hr.node hm
  exact Nat.lt_irrefl _ (Store.lt_size hn)

theorem represents_add (hr : Represents w.heap F) :
    Represents (w.heap.alloc (.node newNode)) (F.add w.heap.size) := by
  intro x
  by_cases hx : x = w.heap.size
  · have hup : F.up x = none := by
      cases hq : F.up x with
      | none => rfl
      | some q => exact absurd (hx ▸ (F.live x q hq).1) hr.fresh
    have hkids : F.kids x = [] := by
      refine List.eq_nil_iff_forall_not_mem.2 fun y hy => ?_
      exact hr.fresh (hx ▸ (F.live y x ((F.mem_kids y x).1 hy)).2)
    have hmem : x ∈ (F.add w.heap.size).nodes := by
      rw [hx]
      exact List.mem_cons_self
    rw [Forest.links_mem hmem]
    dsimp only [Forest.add]
    rw [hup, hkids, hx, links_of (Store.get?_alloc_self _ _)]
    rfl
  · rw [links_congr (Store.get?_alloc_ne hx), hr x]
    unfold Forest.links
    have hmem : x ∈ (F.add w.heap.size).nodes ↔ x ∈ F.nodes := List.mem_cons.trans (or_iff_right hx)
    by_cases hxn : x ∈ F.nodes
    · rw [if_pos hxn, if_pos (hmem.2 hxn)]
      rfl
    · rw [if_neg hxn, if_neg (mt hmem.1 hxn)]

/-- A new node can be hung under every old one. -/
theorem Forest.canHang_add {before : Ptr} {r p : Addr} (hr : r ∉ F.nodes) (hp : p ∈ F.nodes)
    (hb : ∀ b, before = some b → b ∈ F.kids p) : (F.add r).CanHang r p before where
  node := List.mem_cons_self
  root := by
    cases hq : F.up r with
    | none => exact hq
    | some q => exact absurd (F.live r q hq).1 hr
  parent := List.mem_cons_of_mem r hp
  outside h := by
    -- a way up ends in a node that is a parent
    rcases Relation.ReflTransGen.cases_tail h with he | ⟨y, -, hy⟩
    · exact hr (he ▸ hp)
    · exact hr (F.live y r hy).2
  before := hb

end JsonDom
