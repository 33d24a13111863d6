import JsonDom.Doc.Destroy
import JsonDom.Doc.Payload
import JsonDom.Spec.Dom

/-!
# A document in memory

`Holds h D`: the memory `h` is the document `D`, that is its nodes, a text of its own for each node that has
one, and nothing else. The functions of `jd_Node.c` keep this up (`Holds.replace`, `Holds.relinked`,
`Holds.add`, `Holds.remove`), so they lose no block.
-/

namespace JsonDom

open Lib OTree

variable {h h' : Store Cell} {D : Dom} {w : World} {a r p x : Addr} {n n' : JdNode}

/-- The content of a node is not changed where its cell and its text's are not. -/
theorem Content.frame {type : JdType} {text : Option Bytes} (hc : Content h x type text)
    (hkeep : ∀ z, z = x ∨ payloadOf h x = some z → h'.get? z = h.get? z) : Content h' x type text := by
  obtain ⟨n, hn, ht, hp⟩ := hc
  refine ⟨n, (hkeep x (.inl rfl)).trans hn, ht, ?_⟩
  cases text with
  | none => exact hp
  | some s =>
    obtain ⟨q, hq, hs⟩ := hp
    exact ⟨q, hq, (hkeep q (.inr ((payloadOf_node hn).trans hq))).trans hs⟩

theorem blockOf_node {S : Addr → Prop} {z : Addr} (hx : S x) (hz : z = x ∨ payloadOf h x = some z) :
    BlockOf h S z := by
  rcases hz with rfl | hq
  · exact .inl hx
  · exact .inr ⟨x, hx, hq⟩

/-- The memory is the document. -/
structure Holds (h : Store Cell) (D : Dom) : Prop where
  represents : Represents h D.forest
  content : ∀ x ∈ D.forest.nodes, Content h x (D.type x) (D.text x)
  inj : ∀ y ∈ D.forest.nodes, ∀ z ∈ D.forest.nodes, ∀ q, payloadOf h y = some q → payloadOf h z = some q → y = z
  only : ∀ x, ¬ BlockOf h (· ∈ D.forest.nodes) x → h.get? x = none

namespace Holds

theorem node (hh : Holds h D) (ha : a ∈ D.forest.nodes) :
    ∃ n, h.get? a = some (.node n) ∧ n.type = D.type a := by
  obtain ⟨n, hn, ht, -⟩ := hh.content a ha
  exact ⟨n, hn, ht⟩

theorem text (hh : Holds h D) (ha : a ∈ D.forest.nodes) {q : Addr} (hq : payloadOf h a = some q) :
    ∃ s, D.text a = some s ∧ h.get? q = some (.text (s ++ [0])) := by
  obtain ⟨n, hn, -, hp⟩ := hh.content a ha
  rw [payloadOf_node hn] at hq
  cases ht : D.text a with
  | none =>
    simp only [ht] at hp
    simp [hp] at hq
  | some s =>
    simp only [ht] at hp
    obtain ⟨q', hq', hs⟩ := hp
    obtain rfl : q = q' := by simpa [hq] using hq'
    exact ⟨s, rfl, hs⟩

theorem inMemory (hh : Holds h D) : InMemory h D.forest where
  represents := hh.represents
  text y hy q hq := by
    obtain ⟨s, -, hs⟩ := hh.text hy hq
    exact ⟨_, hs⟩
  inj := hh.inj

theorem payload (hh : Holds h D) (ha : a ∈ D.forest.nodes) (hn : h.get? a = some (.node n)) {q : Addr}
    (hq : n.payload = some q) : ∃ block, h.get? q = some (.text block) :=
  hh.inMemory.text a ha q ((payloadOf_node hn).trans hq)

theorem block_live (hh : Holds h D) (hx : BlockOf h (· ∈ D.forest.nodes) x) : ∃ c, h.get? x = some c := by
  rcases hx with hx | ⟨y, hy, hq⟩
  · obtain ⟨n, hn, -⟩ := hh.node hx
    exact ⟨_, hn⟩
  · obtain ⟨s, -, hs⟩ := hh.text hy hq
    exact ⟨_, hs⟩

theorem empty : Holds .empty .empty where
  represents x := rfl
  content x hx := by cases hx
  inj y hy := by cases hy
  only x _ := rfl

theorem relinked (hh : Holds h D) {F : Forest} {ℓ : Addr → Option Links} (hrel : Relinked h h' ℓ)
    (hr : Represents h' F) (hnodes : F.nodes = D.forest.nodes) : Holds h' (D.relink F) := by
  have hm : InMemory h' F := hh.inMemory.relinked hrel.stays hr hnodes
  have hpay : ∀ y ∈ D.forest.nodes, payloadOf h' y = payloadOf h y := by
    intro y hy
    apply hrel.stays.payloadOf_eq
    rw [hh.represents y, Forest.links_mem hy]
  have hblock : ∀ x, BlockOf h' (· ∈ F.nodes) x ↔ BlockOf h (· ∈ D.forest.nodes) x := by
    intro x
    unfold BlockOf
    rw [hnodes]
    refine or_congr_right (exists_congr fun y => and_congr_right fun hy => ?_)
    rw [hpay y hy]
  refine ⟨hr, fun x hx => hrel.stays.content (hh.content x (hnodes ▸ hx)), hm.inj, fun x hx => ?_⟩
  rw [hrel.get, hh.only x (mt (hblock x).2 hx)]
  rfl

end Holds

/-- The payload and the type of the node `a` are replaced: the old text is released and the new one is new. -/
structure Replaced (h h' : Store Cell) (a : Addr) (n n' : JdNode) (text : Option Bytes) : Prop where
  old : h.get? a = some (.node n)
  new : h'.get? a = some (.node n')
  links : n'.links = n.links
  content : Content h' a n'.type text
  fresh : ∀ q, n'.payload = some q → h.size ≤ q
  get : ∀ x, x ≠ a → n'.payload ≠ some x → h'.get? x = if n.payload = some x then none else h.get? x

namespace Replaced

variable {text : Option Bytes}

theorem keep (hr : Replaced h h' a n n' text) {c : Cell} (hx : h.get? x = some c) (hxa : x ≠ a)
    (hxp : n.payload ≠ some x) : h'.get? x = some c := by
  have hxq : n'.payload ≠ some x := fun he => by
    have hlt := Store.lt_size hx
    have hle := hr.fresh x he
    omega
  rw [hr.get x hxa hxq, if_neg hxp, hx]

theorem node (hr : Replaced h h' a n n' text) (hh : Holds h D) (ha : a ∈ D.forest.nodes) (hx : x ∈ D.forest.nodes)
    (hxa : x ≠ a) : h'.get? x = h.get? x := by
  obtain ⟨m, hm, -⟩ := hh.node hx
  rw [hm]
  refine hr.keep hm hxa fun he => ?_
  obtain ⟨block, hb⟩ := hh.payload ha hr.old he
  cases hm.symm.trans hb

theorem payload (hr : Replaced h h' a n n' text) (hh : Holds h D) (ha : a ∈ D.forest.nodes) (hx : x ∈ D.forest.nodes)
    (hxa : x ≠ a) : payloadOf h' x = payloadOf h x := by
  rw [payloadOf, payloadOf, hr.node hh ha hx hxa]

theorem apart (hr : Replaced h h' a n n' text) (hh : Holds h D) (ha : a ∈ D.forest.nodes) (hx : x ∈ D.forest.nodes)
    (hxa : x ≠ a) {q : Addr} (hq : payloadOf h' x = some q) : n'.payload ≠ some q := by
  intro he
  rw [hr.payload hh ha hx hxa] at hq
  obtain ⟨s, -, hs⟩ := hh.text hx hq
  have hlt := Store.lt_size hs
  have hle := hr.fresh q he
  omega

theorem links_eq (hr : Replaced h h' a n n' text) (hh : Holds h D) (ha : a ∈ D.forest.nodes) (x : Addr) :
    JsonDom.links h' x = JsonDom.links h x := by
  by_cases hxa : x = a
  · rw [hxa, links_of hr.new, links_of hr.old, hr.links]
  by_cases hxq : n'.payload = some x
  · -- the new text
    have hnone : JsonDom.links h x = none := by
      rw [JsonDom.links, Store.get?_size_le (hr.fresh x hxq)]
    obtain ⟨m, hm, -, hp⟩ := hr.content
    cases hr.new.symm.trans hm
    cases text with
    | none => simp only [hp] at hxq; cases hxq
    | some s =>
      obtain ⟨q, hq, hs⟩ := hp
      obtain rfl : x = q := by simpa [hxq] using hq
      rw [hnone, JsonDom.links, hs]
  by_cases hxp : n.payload = some x
  · -- the old text
    obtain ⟨block, hb⟩ := hh.payload ha hr.old hxp
    rw [JsonDom.links, hr.get x hxa hxq, if_pos hxp, JsonDom.links, hb]
  · rw [JsonDom.links, hr.get x hxa hxq, if_neg hxp, JsonDom.links]

theorem content_other (hr : Replaced h h' a n n' text) (hh : Holds h D) (ha : a ∈ D.forest.nodes)
    (hx : x ∈ D.forest.nodes) (hxa : x ≠ a) : Content h' x (D.type x) (D.text x) := by
  refine (hh.content x hx).frame fun z hz => ?_
  rcases hz with rfl | hq
  · exact hr.node hh ha hx hxa
  obtain ⟨s, -, hs⟩ := hh.text hx hq
  rw [hs]
  refine hr.keep hs (fun he => ?_) fun he => ?_
  · cases hr.old.symm.trans (he ▸ hs)
  · exact hxa (hh.inj x hx a ha z hq ((payloadOf_node hr.old).trans he))

end Replaced

namespace Holds

/-- **The payload and the type of a node are replaced.** -/
theorem replace {text : Option Bytes} (hh : Holds h D) (ha : a ∈ D.forest.nodes) (hr : Replaced h h' a n n' text) :
    Holds h' (D.set a n'.type text) := by
  have hpa : payloadOf h a = n.payload := payloadOf_node hr.old
  have hpa' : payloadOf h' a = n'.payload := payloadOf_node hr.new
  refine ⟨fun x => (hr.links_eq hh ha x).trans (hh.represents x), fun x hx => ?_, fun y hy z hz q hyq hzq => ?_,
    fun x hx => ?_⟩
  · by_cases hxa : x = a
    · subst hxa
      simpa using hr.content
    · rw [Dom.set_type_ne hxa, Dom.set_text_ne hxa]
      exact hr.content_other hh ha hx hxa
  · by_cases hya : y = a <;> by_cases hza : z = a
    · rw [hya, hza]
    · exact absurd (hpa'.symm.trans (hya ▸ hyq)) (hr.apart hh ha hz hza hzq)
    · exact absurd (hpa'.symm.trans (hza ▸ hzq)) (hr.apart hh ha hy hya hyq)
    · rw [hr.payload hh ha hy hya] at hyq
      rw [hr.payload hh ha hz hza] at hzq
      exact hh.inj y hy z hz q hyq hzq
  · have hxa : x ≠ a := fun he => hx (.inl (he ▸ ha))
    have hxq : n'.payload ≠ some x := fun he => hx (.inr ⟨a, ha, hpa'.trans he⟩)
    rw [hr.get x hxa hxq]
    split
    · rfl
    next hxp =>
    apply hh.only
    rintro (hm | ⟨y, hy, hq⟩)
    · exact hx (.inl hm)
    by_cases hya : y = a
    · exact hxp (hpa.symm.trans (hya ▸ hq))
    · exact hx (.inr ⟨y, hy, (hr.payload hh ha hy hya).trans hq⟩)

theorem add (hh : Holds h D) : Holds (h.alloc (.node newNode)) (D.add h.size) := by
  have hnew : (h.alloc (.node newNode)).get? h.size = some (.node newNode) := Store.get?_alloc_self _ _
  have hold : ∀ y ∈ D.forest.nodes, y ≠ h.size := fun y hy he => by
    obtain ⟨m, hm, -⟩ := hh.node hy
    exact absurd (Store.lt_size hm) (by omega)
  have hpay : ∀ y ∈ D.forest.nodes, payloadOf (h.alloc (.node newNode)) y = payloadOf h y := fun y hy => by
    rw [payloadOf, payloadOf, Store.get?_alloc_ne (hold y hy)]
  have hnone : payloadOf (h.alloc (.node newNode)) h.size = none := payloadOf_node hnew
  have hmem : ∀ y, y ∈ (D.add h.size).forest.nodes ↔ y = h.size ∨ y ∈ D.forest.nodes := fun y => List.mem_cons
  have hblock : ∀ x, BlockOf (h.alloc (.node newNode)) (· ∈ (D.add h.size).forest.nodes) x ↔
      x = h.size ∨ BlockOf h (· ∈ D.forest.nodes) x := by
    intro x
    unfold BlockOf
    simp only [hmem]
    constructor
    · rintro ((hx | hx) | ⟨y, rfl | hy, hq⟩)
      · exact .inl hx
      · exact .inr (.inl hx)
      · rw [hnone] at hq
        cases hq
      · exact .inr (.inr ⟨y, hy, (hpay y hy).symm.trans hq⟩)
    · rintro (hx | hx | ⟨y, hy, hq⟩)
      · exact .inl (.inl hx)
      · exact .inl (.inr hx)
      · exact .inr ⟨y, .inr hy, (hpay y hy).trans hq⟩
  refine ⟨?_, fun x hx => ?_, fun y hy z hz q hyq hzq => ?_, fun x hx => ?_⟩
  · exact @represents_add { World.start [] .eof with heap := h } _ hh.represents
  · rcases (hmem x).1 hx with rfl | hx
    · refine ⟨newNode, hnew, ?_, ?_⟩
      · simp [Dom.add]; rfl
      · simp [Dom.add]; rfl
    · have htype : (D.add h.size).type x = D.type x := Function.update_of_ne (hold x hx) _ _
      have htext : (D.add h.size).text x = D.text x := Function.update_of_ne (hold x hx) _ _
      rw [htype, htext]
      refine (hh.content x hx).frame fun z hz => ?_
      obtain ⟨c, hc⟩ := hh.block_live (blockOf_node hx hz)
      rw [Store.get?_alloc_lt (Store.lt_size hc)]
  · rcases (hmem y).1 hy with rfl | hy
    · rw [hnone] at hyq
      cases hyq
    rcases (hmem z).1 hz with rfl | hz
    · rw [hnone] at hzq
      cases hzq
    rw [hpay y hy] at hyq
    rw [hpay z hz] at hzq
    exact hh.inj y hy z hz q hyq hzq
  · rw [hblock, not_or] at hx
    rw [Store.get?_alloc_ne hx.1, hh.only x hx.2]

theorem remove (hh : Holds h D) (hr : r ∈ D.forest.nodes) (hup : D.forest.up r = none)
    (hrem : Removes h h' fun x => D.forest.Inside x r) : Holds h' (D.relink (D.forest.remove r hup)) := by
  have hm := hh.inMemory.remove hup hr hrem
  have hmem : ∀ y, y ∈ (D.forest.remove r hup).nodes ↔ y ∈ D.forest.nodes ∧ ¬ D.forest.Inside y r := fun y =>
    Forest.mem_remove hup
  have hin : ∀ {y}, D.forest.Inside y r → y ∈ D.forest.nodes := fun hy => hy.node hr
  -- a node that is left, and its text
  have hkept : ∀ y ∈ (D.forest.remove r hup).nodes, ∀ x, x = y ∨ payloadOf h y = some x → h'.get? x = h.get? x := by
    intro y hy x hx
    obtain ⟨hyn, hyout⟩ := (hmem y).1 hy
    apply hrem.kept
    rintro (hxr | ⟨z, hz, hq⟩)
    · rcases hx with rfl | hx
      · exact hyout hxr
      · obtain ⟨s, -, hs⟩ := hh.text hyn hx
        exact hh.inMemory.not_node hs (hin hxr)
    · rcases hx with rfl | hx
      · obtain ⟨s, -, hs⟩ := hh.text (hin hz) hq
        exact hh.inMemory.not_node hs hyn
      · exact hyout (hh.inj z (hin hz) y hyn x hq hx ▸ hz)
  have hpay : ∀ y ∈ (D.forest.remove r hup).nodes, payloadOf h' y = payloadOf h y := fun y hy => by
    rw [payloadOf, payloadOf, hkept y hy y (.inl rfl)]
  have hblock : ∀ x, BlockOf h (· ∈ D.forest.nodes) x ↔
      BlockOf h' (· ∈ (D.forest.remove r hup).nodes) x ∨ BlockOf h (fun x => D.forest.Inside x r) x := by
    intro x
    unfold BlockOf
    constructor
    · rintro (hx | ⟨y, hy, hq⟩)
      · by_cases hxr : D.forest.Inside x r
        · exact .inr (.inl hxr)
        · exact .inl (.inl ((hmem x).2 ⟨hx, hxr⟩))
      · by_cases hyr : D.forest.Inside y r
        · exact .inr (.inr ⟨y, hyr, hq⟩)
        · have hyn := (hmem y).2 ⟨hy, hyr⟩
          exact .inl (.inr ⟨y, hyn, (hpay y hyn).trans hq⟩)
    · rintro ((hx | ⟨y, hy, hq⟩) | hx | ⟨y, hy, hq⟩)
      · exact .inl ((hmem x).1 hx).1
      · exact .inr ⟨y, ((hmem y).1 hy).1, (hpay y hy).symm.trans hq⟩
      · exact .inl (hin hx)
      · exact .inr ⟨y, hin hy, hq⟩
  refine ⟨hm.represents, fun x hx => ?_, hm.inj, fun x hx => ?_⟩
  · exact (hh.content x ((hmem x).1 hx).1).frame (hkept x hx)
  · by_cases hxr : BlockOf h (fun x => D.forest.Inside x r) x
    · exact hrem.gone x hxr
    · rw [hrem.kept x hxr, hh.only x]
      rw [hblock]
      exact not_or.2 ⟨hx, hxr⟩

/-! ## The functions of `jd_Node.c` -/

/-- `jd_Node_set_null` and the others that leave a node without a text. -/
theorem setPlain (hh : Holds w.heap D) (ha : a ∈ D.forest.nodes) (type : JdType) :
    ∃ h', jdNodeSetPlain (some a) type w = .ok (true, { w with heap := h' }) ∧
      Holds h' (D.set a type none) := by
  obtain ⟨n, hn, -⟩ := hh.node ha
  obtain ⟨h1, hrun1, -, hn1, hget1⟩ := discardPayload_release hn fun q hq => hh.payload ha hn hq
  have hrun := @setPlain_run { w with heap := h1 } a _ hn1 rfl type
  unfold jdNodeSetPlain at hrun ⊢
  rw [discard_again hrun1 hn1, hrun]
  refine ⟨_, rfl, ?_⟩
  have hn' : (h1.put a (.node { n with payload := none, type })).get? a =
      some (.node { n with payload := none, type }) := Store.get?_put_self (Store.lt_size hn1)
  refine hh.replace ha ⟨hn, hn', rfl, ⟨_, hn', rfl, rfl⟩, nofun, fun x hxa _ => ?_⟩
  rw [Store.get?_put_ne hxa, hget1 x hxa]

/-- `jd_Node_copy_string`, `jd_Node_set_integer` and `jd_Node_set_float` where the copy is granted. -/
theorem copy (hh : Holds w.heap D) (ha : a ∈ D.forest.nodes) (ho : w.oracle w.mallocs = true)
    (value : Bytes) (type : TextType) :
    ∃ h', type.copy (some a) value w = .ok (true, { w with heap := h', mallocs := w.mallocs + 1 }) ∧
      Holds h' (D.set a type.type (some value)) := by
  obtain ⟨n, hn, -⟩ := hh.node ha
  obtain ⟨h1, hrun1, hsize1, hn1, hget1⟩ := discardPayload_release hn fun q hq => hh.payload ha hn hq
  have hrun := (copy_again hrun1 hn1 value type).trans (@copy_run { w with heap := h1 } a _ hn1 rfl ho value type)
  refine ⟨_, hrun, ?_⟩
  have hlt := Store.lt_size hn1
  have hn' : ((h1.alloc (.text (value ++ [0]))).put a
      (.node { n with payload := some h1.size, type := type.type })).get? a =
        some (.node { n with payload := some h1.size, type := type.type }) := by
    apply Store.get?_put_self
    rw [Store.size_alloc]
    exact Nat.lt_succ_of_lt hlt
  suffices hr : Replaced w.heap _ a n { n with payload := some h1.size, type := type.type } (some value) from
    hh.replace ha hr
  refine ⟨hn, hn', rfl, ⟨_, hn', rfl, _, rfl, ?_⟩, fun q hq => ?_, fun x hxa hxq => ?_⟩
  · rw [Store.get?_put_ne (Nat.ne_of_gt hlt), Store.get?_alloc_self]
  · obtain rfl : h1.size = q := Option.some.inj hq
    omega
  · have hxs : x ≠ h1.size := fun he => hxq (congrArg some he.symm)
    rw [Store.get?_put_ne hxa, Store.get?_alloc_ne hxs, hget1 x hxa]

/-- Where it is refused the old text is gone and the type is still there. -/
theorem copy_refused (hh : Holds w.heap D) (ha : a ∈ D.forest.nodes) (ho : w.oracle w.mallocs = false)
    (value : Bytes) (type : TextType) :
    ∃ h', type.copy (some a) value w = .ok (false, { w with heap := h', mallocs := w.mallocs + 1 }) ∧
      Holds h' (D.set a (D.type a) none) := by
  obtain ⟨n, hn, ht⟩ := hh.node ha
  obtain ⟨h1, hrun1, -, hn1, hget1⟩ := discardPayload_release hn fun q hq => hh.payload ha hn hq
  have hrun := (copy_again hrun1 hn1 value type).trans (@copy_fail { w with heap := h1 } a _ hn1 rfl ho value type)
  refine ⟨_, hrun, ?_⟩
  rw [← ht]
  have hr : Replaced w.heap h1 a n { n with payload := none } none :=
    ⟨hn, hn1, rfl, ⟨_, hn1, rfl, rfl⟩, nofun, fun x hxa _ => hget1 x hxa⟩
  have hh1 := hh.replace ha hr
  exact hh1

/-- `jd_Node_take_string` of a text the caller has made. -/
theorem take (hh : Holds w.heap D) (ha : a ∈ D.forest.nodes) (value : Bytes) :
    ∃ h', jdNodeTakeString (some a) (some w.heap.size) { w with heap := w.heap.alloc (.text (value ++ [0])) } =
        .ok (true, { w with heap := h' }) ∧ Holds h' (D.set a .jdString (some value)) := by
  obtain ⟨n, hn, -⟩ := hh.node ha
  obtain ⟨w1, hw1⟩ : ∃ w1, w1 = { w with heap := w.heap.alloc (.text (value ++ [0])) } := ⟨_, rfl⟩
  have hold : ∀ {x c}, w.heap.get? x = some c → w1.heap.get? x = some c := fun hx => by
    rw [hw1, Store.get?_alloc_lt (Store.lt_size hx), hx]
  have hlt := Store.lt_size hn
  obtain ⟨h1, hrun1, hsize1, hn1, hget1⟩ := discardPayload_release (hold hn) fun q hq => by
    obtain ⟨block, hb⟩ := hh.payload ha hn hq
    exact ⟨block, hold hb⟩
  have hrun := @takeString_run { w1 with heap := h1 } a _ hn1 rfl (some w.heap.size)
  unfold jdNodeTakeString at hrun ⊢
  rw [← hw1, discard_again hrun1 hn1, hrun, hw1]
  refine ⟨_, rfl, ?_⟩
  have hn' : (h1.put a (.node { n with payload := some w.heap.size, type := .jdString })).get? a =
      some (.node { n with payload := some w.heap.size, type := .jdString }) :=
    Store.get?_put_self (Store.lt_size hn1)
  suffices hr : Replaced w.heap _ a n { n with payload := some w.heap.size, type := .jdString } (some value) from
    hh.replace ha hr
  refine ⟨hn, hn', rfl, ⟨_, hn', rfl, _, rfl, ?_⟩, fun q hq => ?_, fun x hxa hxq => ?_⟩
  · have hnp : n.payload ≠ some w.heap.size := fun he => by
      obtain ⟨block, hb⟩ := hh.payload ha hn he
      exact absurd (Store.lt_size hb) (Nat.lt_irrefl _)
    rw [Store.get?_put_ne (Nat.ne_of_gt hlt), hget1 _ (Nat.ne_of_gt hlt), if_neg hnp, hw1, Store.get?_alloc_self]
  · exact Nat.le_of_eq (Option.some.inj hq)
  · have hxs : x ≠ w.heap.size := fun he => hxq (congrArg some he.symm)
    rw [Store.get?_put_ne hxa, hget1 x hxa, hw1, Store.get?_alloc_ne hxs]

theorem adopt {before : Ptr} (hh : Holds w.heap D) (hc : D.forest.CanHang r p before) :
    ∃ h', jdNodeAdopt (some r) (some p) before w = .ok ((), { w with heap := h' }) ∧
      Holds h' (D.relink (D.forest.hang r p before hc)) := by
  obtain ⟨h', ℓ, hrun, hrep, hrel⟩ := adopt_relinked hh.represents hc
  exact ⟨h', hrun, hh.relinked hrel hrep rfl⟩

theorem emancipate (hh : Holds w.heap D) (ha : a ∈ D.forest.nodes) :
    ∃ h', jdNodeEmancipate (some a) w = .ok ((), { w with heap := h' }) ∧
      Holds h' (D.relink (D.forest.unhang a)) := by
  obtain ⟨h', ℓ, hrun, hrep, hrel⟩ := emancipate_relinked hh.represents ha
  exact ⟨h', hrun, hh.relinked hrel hrep rfl⟩

theorem destroy (hh : Holds w.heap D) (hr : r ∈ D.forest.nodes) (hup : D.forest.up r = none) :
    ∃ h', jdNodeDestroy (some r) w = .ok (none, { w with heap := h' }) ∧
      Holds h' (D.relink (D.forest.remove r hup)) := by
  obtain ⟨h', hrun, hrem⟩ := destroy_behind hh.inMemory hr
  rw [funext fun y => propext (behind_root hup y)] at hrem
  exact ⟨h', hrun, hh.remove hr hup hrem⟩

theorem createRoot (hh : Holds w.heap D) (ho : w.oracle w.mallocs = true) (before : Ptr) :
    ∃ h', jdNodeCreate none before w = .ok (some w.heap.size, { w with heap := h', mallocs := w.mallocs + 1 }) ∧
      Holds h' (D.add w.heap.size) := by
  refine ⟨_, ?_, hh.add⟩
  unfold jdNodeCreate
  rw [M.bind_ok (malloc_run w ho _)]
  rfl

theorem createChild {before : Ptr} (hh : Holds w.heap D) (ho : w.oracle w.mallocs = true)
    (hp : p ∈ D.forest.nodes) (hb : ∀ b, before = some b → b ∈ D.forest.kids p) :
    ∃ h' hc, jdNodeCreate (some p) before w =
        .ok (some w.heap.size, { w with heap := h', mallocs := w.mallocs + 1 }) ∧
      Holds h' (D.bear w.heap.size p before hc) := by
  have hcan := Forest.canHang_add hh.represents.fresh hp hb
  obtain ⟨h', hrun, hhold⟩ := @adopt (D.add w.heap.size)
    { w with heap := w.heap.alloc (.node newNode), mallocs := w.mallocs + 1 } _ _ _ hh.add hcan
  refine ⟨h', hcan, ?_, hhold⟩
  unfold jdNodeCreate
  rw [M.bind_ok (malloc_run w ho _), if_pos (by rfl), if_pos (by rfl), M.bind_ok hrun]
  rfl

/-- The part of `jd_Node_make_null_property` that makes the children of the property. -/
def propertyChildren (node : Ptr) (label : Bytes) : M Bool := do
  let labelNode ← jdNodeCreate node none
  if labelNode.isSome then do
    let valueNode ← jdNodeCreate node none
    if valueNode.isSome then do
      let _ ← jdNodeCopyString labelNode label
      let _ ← jdNodeSetNull valueNode
      pure true
    else do
      jdNodeDestroyChildren node
      pure false
  else pure false

/-- A node without children becomes a property, as with the setters of a type without a text. -/
theorem property_begun (hh : Holds w.heap D) (ha : a ∈ D.forest.nodes) (hk : D.forest.kids a = []) (label : Bytes) :
    ∃ h1, jdNodeMakeNullProperty (some a) label w = propertyChildren (some a) label { w with heap := h1 } ∧
      Holds h1 (D.set a .jdProperty none) := by
  obtain ⟨n, hn, -, -, hfirst, -⟩ := hh.represents.node ha
  rw [hk] at hfirst
  obtain ⟨h1, hplain, hh1⟩ := hh.setPlain ha .jdProperty
  obtain ⟨h0, hdiscard, -, hn0, -⟩ := discardPayload_release hn fun q hq => hh.payload ha hn hq
  unfold jdNodeSetPlain at hplain
  rw [M.bind_ok hdiscard] at hplain
  obtain ⟨⟨⟩, w1, htype, hpure⟩ := M.bind_eq_ok hplain
  cases hpure
  refine ⟨h1, ?_, hh1⟩
  unfold jdNodeMakeNullProperty
  rw [M.bind_ok hdiscard, M.bind_ok (getNode_run { w with heap := h0 } hn0), if_neg (by simp [hfirst])]
  exact M.bind_ok htype

/-- The label's text is copied, or refused, and the value is null. -/
theorem labelled {l v : Addr} (hh : Holds w.heap D) (hl : l ∈ D.forest.nodes) (hv : v ∈ D.forest.nodes)
    (label : Bytes) :
    ∃ h', (do
        let _ ← jdNodeCopyString (some l) label
        let _ ← jdNodeSetNull (some v)
        pure true : M Bool) w = .ok (true, { w with heap := h', mallocs := w.mallocs + 1 }) ∧
      Holds h' ((D.set l (if w.oracle w.mallocs then .jdString else D.type l)
        (if w.oracle w.mallocs then some label else none)).set v .jdNull none) := by
  cases ho : w.oracle w.mallocs with
  | true =>
    obtain ⟨h1, hrun1, hh1⟩ := hh.copy hl ho label .string
    obtain ⟨h2, hrun2, hh2⟩ := @setPlain _ { w with heap := h1, mallocs := w.mallocs + 1 } _ hh1 hv .jdNull
    exact ⟨h2, (M.bind_ok hrun1).trans (M.bind_ok hrun2), hh2⟩
  | false =>
    obtain ⟨h1, hrun1, hh1⟩ := hh.copy_refused hl ho label .string
    obtain ⟨h2, hrun2, hh2⟩ := @setPlain _ { w with heap := h1, mallocs := w.mallocs + 1 } _ hh1 hv .jdNull
    exact ⟨h2, (M.bind_ok hrun1).trans (M.bind_ok hrun2), hh2⟩

/-- `jd_Node_make_null_property` of a node without children, where the value's node is not the one that is
refused: in that case the node keeps a link to the label, which is freed. -/
theorem nullProperty (hh : Holds w.heap D) (ha : a ∈ D.forest.nodes) (hk : D.forest.kids a = [])
    (label : Bytes) (hgo : w.oracle w.mallocs = true → w.oracle (w.mallocs + 1) = true) :
    ∃ ok h' k D', jdNodeMakeNullProperty (some a) label w = .ok (ok, { w with heap := h', mallocs := k }) ∧
      Holds h' D' ∧ D.Propertied a label ok D' ∧
      (w.oracle w.mallocs = true → w.oracle (w.mallocs + 2) = true → ok = true ∧
        ∃ l v, v ∉ D.forest.nodes ∧ D'.Labelled a l v label) := by
  obtain ⟨h1, hmake, hh1⟩ := hh.property_begun ha hk label
  rw [hmake, propertyChildren]
  have ha1 : a ∈ (D.set a .jdProperty none).forest.nodes := ha
  cases hlabel : w.oracle w.mallocs with
  | false =>
    rw [M.bind_ok (@create_fail { w with heap := h1 } hlabel _ _)]
    exact ⟨false, h1, w.mallocs + 1, _, rfl, hh1, .refused, nofun⟩
  | true =>
    -- the label's node and the value's
    obtain ⟨h2, hc2, hrun2, hh2⟩ := @createChild _ { w with heap := h1 } a none hh1 hlabel ha1 nofun
    have hl2 : h1.size ∈ ((D.set a .jdProperty none).bear h1.size a none hc2).forest.nodes := List.mem_cons_self
    obtain ⟨h3, hc3, hrun3, hh3⟩ := @createChild _ { w with heap := h2, mallocs := w.mallocs + 1 } a none hh2
      (hgo hlabel) (List.mem_cons_of_mem _ ha) nofun
    rw [M.bind_ok hrun2, if_pos (by rfl), M.bind_ok hrun3, if_pos (by rfl)]
    have hfresh2 := @Represents.fresh { w with heap := h2 } _ hh2.represents
    have hlv : h1.size ≠ h2.size := ne_of_mem_of_not_mem hl2 hfresh2
    have hlnew : h1.size ∉ D.forest.nodes := @Represents.fresh { w with heap := h1 } _ hh1.represents
    have hvnew : h2.size ∉ D.forest.nodes := fun hm => hfresh2 (List.mem_cons_of_mem _ hm)
    obtain ⟨h4, hrun4, hh4⟩ := @labelled _ { w with heap := h3, mallocs := w.mallocs + 2 } _ _ hh3
      (List.mem_cons_of_mem _ hl2) List.mem_cons_self label
    refine ⟨true, h4, w.mallocs + 3, _, hrun4, hh4, ?_, fun _ htext => ⟨rfl, h1.size, h2.size, hvnew, ?_⟩⟩
    · refine .made hc2 hc3 hlnew hvnew hlv ?_
      cases w.oracle (w.mallocs + 2) with
      | true => exact .inl ⟨rfl, rfl⟩
      | false => exact .inr ⟨by simp [Dom.bear, Dom.add, hlv], rfl⟩
    · simp only [htext, if_true]
      exact Dom.labelled ha hk hc2 hc3 hlnew hvnew hlv label

end Holds

end JsonDom
