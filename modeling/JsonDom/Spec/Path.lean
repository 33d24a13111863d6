import JsonDom.Spec.Dom

/-!
# Values at paths

A path leads from a value to a member of it, to a member of that and so on; from the node of the value it
leads to the node of the member (`Dom.nodeAt`). What is changed at a node and inside it changes the document
at the path of the node and nowhere else (`Dom.Doc.alter`).
-/

namespace JsonDom

open Lib

namespace Json

/-- The members of a collection; an element of an array has no label. -/
def members : Json → List (Bytes × Json)
  | arr xs => xs.map fun J => ([], J)
  | obj ms => ms
  | _ => []

/-- The collection with other members. -/
def withMembers : Json → List (Bytes × Json) → Json
  | arr _, ms => arr (ms.map (·.2))
  | obj _, ms => obj ms
  | J, _ => J

/-- The value at a path. -/
def get? : Json → List Nat → Option Json
  | J, [] => some J
  | J, i :: path => J.members[i]?.bind fun m => m.2.get? path

/-- The document with `f` applied to the value at a path. -/
def alter (f : Json → Json) : List Nat → Json → Json
  | [], J => f J
  | i :: path, J => J.withMembers (J.members.modify i fun m => (m.1, alter f path m.2))

def insertMember (i : Nat) (m : Bytes × Json) (J : Json) : Json := J.withMembers (J.members.insertIdx i m)

def removeMember (i : Nat) (J : Json) : Json := J.withMembers (J.members.eraseIdx i)

theorem members_build {k : Kind} {ms : List (Bytes × Json)} (h : k = .arr → ∀ m ∈ ms, m.1 = []) :
    (k.build ms).members = ms := by
  cases k with
  | obj => rfl
  | arr =>
    show (ms.map (·.2)).map (fun J => (([] : Bytes), J)) = ms
    rw [List.map_map]
    conv_rhs => rw [← List.map_id ms]
    apply List.map_congr_left
    intro m hm
    rw [id_eq, ← h rfl m hm]
    rfl

theorem withMembers_build (k : Kind) (ms ms' : List (Bytes × Json)) :
    (k.build ms).withMembers ms' = k.build ms' := by
  cases k <;> rfl

end Json

namespace Dom

variable {D D' : Dom} {J K : Json} {a b c r x : Addr} {i : Nat} {path : List Nat} {k : Kind} {xs : List Entry}

/-- The node of the value a child stands for: a property has it behind the label. -/
def valueNode (D : Dom) (c : Addr) : Option Addr :=
  if D.type c = .jdProperty then (D.forest.kids c)[1]? else some c

/-- The node at a path. -/
def nodeAt (D : Dom) : Addr → List Nat → Option Addr
  | a, [] => some a
  | a, i :: path => ((D.forest.kids a)[i]?.bind D.valueNode).bind fun b => D.nodeAt b path

/-- The node has the same children, type and text. -/
structure Alike (D D' : Dom) (x : Addr) : Prop where
  kids : D'.forest.kids x = D.forest.kids x
  type : D'.type x = D.type x
  text : D'.text x = D.text x

theorem Doc.type_eq (h : D.Doc a J) : D.type a = J.type := by
  cases h with
  | scalar _ _ ht _ => exact ht
  | coll _ _ _ ht _ => rw [ht, Kind.type_build]

/-- The node of a value is no property. -/
theorem Doc.not_property (h : D.Doc a J) : D.type a ≠ .jdProperty := by
  rw [h.type_eq]
  cases J <;> simp [Json.type]

/-- A child leads to the node of its member. -/
theorem Stands.valueNode {x : Entry} (h : D.Stands x k) (hd : D.Doc x.node x.value) :
    D.valueNode x.child = some x.node := by
  unfold Dom.valueNode
  cases k with
  | arr => rw [← h.2, if_neg hd.not_property]
  | obj =>
    obtain ⟨l, hkids, hp, -⟩ := h
    rw [if_pos hp, hkids]
    rfl

/-- The node of a member is inside its child. -/
theorem Stands.inside {x : Entry} (h : D.Stands x k) : D.forest.Inside x.node x.child := by
  cases k with
  | arr =>
    rw [h.2]
    exact .refl
  | obj =>
    obtain ⟨l, hkids, -⟩ := h
    exact .single ((D.forest.mem_kids _ _).1 (by simp [hkids]))

theorem child_up (hk : D.forest.kids a = xs.map Entry.child) {x : Entry} (hx : x ∈ xs) :
    D.forest.up x.child = some a := by
  rw [← D.forest.mem_kids, hk]
  exact List.mem_map_of_mem hx

/-- The label of a member, if it has one, is outside of what is inside the member's node. -/
theorem Stands.alike {x : Entry} (h : D.Stands x k)
    (hs : ∀ y, D.forest.Inside y x.child → ¬ D.forest.Inside y x.node → D.Alike D' y) : D'.Stands x k := by
  cases k with
  | arr => exact h
  | obj =>
    obtain ⟨l, hkids, hp, hpt, hl, hlt, hls⟩ := h
    have hnodup := D.forest.nodup x.child
    rw [hkids] at hnodup
    have hlx : l ≠ x.node := by simpa using hnodup
    have hlup : D.forest.up l = some x.child := (D.forest.mem_kids _ _).1 (by simp [hkids])
    have hvup : D.forest.up x.node = some x.child := (D.forest.mem_kids _ _).1 (by simp [hkids])
    have hchild := hs x.child .refl (Forest.not_inside_child hvup)
    have hlabel := hs l (.single hlup) fun hin => hlx (Forest.inside_sibling hlup hvup .refl hin)
    exact ⟨l, by rw [hchild.kids, hkids], by rw [hchild.type, hp], by rw [hchild.text, hpt],
      by rw [hlabel.kids, hl], by rw [hlabel.type, hlt], by rw [hlabel.text, hls]⟩

/-- **A document is not changed** where its nodes are not. -/
theorem Doc.frame (hd : D.Doc a J) (hs : ∀ y, D.forest.Inside y a → D.Alike D' y) : D'.Doc a J := by
  induction hd with
  | @scalar a J hJ hk ht htext =>
    have ha := hs a .refl
    exact .scalar hJ (by rw [ha.kids, hk]) (by rw [ha.type, ht]) (by rw [ha.text, htext])
  | @coll a k xs _ hst hk ht htext ih =>
    have ha := hs a .refl
    have hin : ∀ x ∈ xs, ∀ y, D.forest.Inside y x.child → D.forest.Inside y a := fun x hx y hy =>
      hy.tail (child_up hk hx)
    refine .coll (fun x hx => ih x hx fun y hy => ?_) (fun x hx => ?_) (by rw [ha.kids, hk]) (by rw [ha.type, ht])
      (by rw [ha.text, htext])
    · exact hs y (hin x hx y (hy.trans (hst x hx).inside))
    · exact (hst x hx).alike fun y hy _ => hs y (hin x hx y hy)

/-- The members of a collection. -/
structure Members (D : Dom) (a : Addr) (k : Kind) (xs : List Entry) : Prop where
  value : ∀ x ∈ xs, D.Doc x.node x.value
  stands : ∀ x ∈ xs, D.Stands x k
  kids : D.forest.kids a = xs.map Entry.child
  type : D.type a = k.type
  text : D.text a = none

namespace Members

theorem doc (hm : D.Members a k xs) : D.Doc a (k.build (xs.map Entry.pair)) :=
  .coll hm.value hm.stands hm.kids hm.type hm.text

theorem up (hm : D.Members a k xs) {x : Entry} (hx : x ∈ xs) : D.forest.up x.child = some a :=
  child_up hm.kids hx

theorem members (hm : D.Members a k xs) : (k.build (xs.map Entry.pair)).members = xs.map Entry.pair := by
  apply Json.members_build
  rintro rfl m hx
  obtain ⟨y, hy, rfl⟩ := List.mem_map.1 hx
  exact (hm.stands y hy).1

theorem map_members (hm : D.Members a k xs) (f : List (Bytes × Json) → List (Bytes × Json)) :
    (k.build (xs.map Entry.pair)).withMembers (f (k.build (xs.map Entry.pair)).members) =
      k.build (f (xs.map Entry.pair)) := by
  rw [hm.members, Json.withMembers_build]

/-- Different members have different children. -/
theorem child_inj (hm : D.Members a k xs) {i j : Nat} {x y : Entry} (hx : xs[i]? = some x) (hy : xs[j]? = some y)
    (he : x.child = y.child) : i = j := by
  have hnodup := D.forest.nodup a
  rw [hm.kids] at hnodup
  have hget : ∀ {n : Nat} {z : Entry}, xs[n]? = some z → (xs.map Entry.child)[n]? = some z.child := fun hz => by
    rw [List.getElem?_map, hz]
    rfl
  obtain ⟨hlt, hxi⟩ := List.getElem?_eq_some_iff.1 (hget hx)
  obtain ⟨hlt', hyj⟩ := List.getElem?_eq_some_iff.1 (hget hy)
  exact (List.Nodup.getElem_inj_iff hnodup).1 (by rw [hxi, hyj, he])

/-- Other members: each is one of the old ones that is not changed, or new. -/
theorem rebuilt {ys : List Entry} (hm : D.Members a k xs) (hkids : D'.forest.kids a = ys.map Entry.child)
    (htype : D'.type a = D.type a) (htext : D'.text a = D.text a)
    (h : ∀ y ∈ ys, (y ∈ xs ∧ ∀ z, D.forest.Inside z y.child → D.Alike D' z) ∨
      D'.Doc y.node y.value ∧ D'.Stands y k) : D'.Members a k ys where
  value y hy := by
    rcases h y hy with ⟨hx, hs⟩ | ⟨hd, -⟩
    · exact (hm.value y hx).frame fun z hz => hs z (hz.trans (hm.stands y hx).inside)
    · exact hd
  stands y hy := by
    rcases h y hy with ⟨hx, hs⟩ | ⟨-, hst⟩
    · exact (hm.stands y hx).alike fun z hz _ => hs z hz
    · exact hst
  kids := hkids
  type := by rw [htype, hm.type]
  text := by rw [htext, hm.text]

end Members

/-- A document with children is a collection. -/
theorem Doc.collection (hd : D.Doc a J) (hc : D.type a = k.type) :
    ∃ xs, J = k.build (xs.map Entry.pair) ∧ D.Members a k xs := by
  cases hd with
  | scalar hJ _ ht _ => exact absurd (ht.symm.trans hc) (Json.type_collection hJ k)
  | @coll _ k' xs hv hst hk ht htext =>
    obtain rfl := Kind.type_inj (ht.symm.trans hc)
    exact ⟨xs, rfl, hv, hst, hk, ht, htext⟩

/-- The value of one member is another one. -/
theorem Members.modify {x : Entry} {f : Json → Json} (hm : D.Members r k xs) (hx : xs[i]? = some x)
    (hs : ∀ y, D.forest.Inside y r → ¬ D.forest.Inside y x.node → D.Alike D' y) (hd : D'.Doc x.node (f x.value)) :
    D'.Members r k (xs.modify i fun y => { y with value := f y.value }) := by
  have hmem := List.mem_of_getElem? hx
  have hin : D.forest.Inside x.node x.child := (hm.stands x hmem).inside
  have hself : D.Alike D' r := hs r .refl fun hr => Forest.not_inside_child (hm.up hmem) (hr.trans hin)
  have hkids : D'.forest.kids r = (xs.modify i fun y => { y with value := f y.value }).map Entry.child := by
    rw [hself.kids, hm.kids, map_modify (f := fun y => { y with value := f y.value }) Entry.child id fun _ => rfl,
      List.modify_id]
  refine hm.rebuilt hkids hself.type hself.text fun y hy => ?_
  obtain ⟨j, hj⟩ := List.mem_iff_getElem?.1 hy
  rw [List.getElem?_modify] at hj
  by_cases hij : i = j
  · -- the one that is changed
    subst hij
    obtain rfl : { x with value := f x.value } = y := by simpa [hx] using hj
    have hst : D'.Stands x k := (hm.stands x hmem).alike fun z hz hzx => hs z (hz.tail (hm.up hmem)) hzx
    exact .inr ⟨hd, hst⟩
  · have hy : xs[j]? = some y := by simpa [hij] using hj
    have hymem := List.mem_of_getElem? hy
    refine .inl ⟨hymem, fun z hz => hs z (hz.tail (hm.up hymem)) fun hzx => hij ?_⟩
    exact hm.child_inj hx hy (Forest.inside_sibling (hm.up hmem) (hm.up hymem) (hzx.trans hin) hz)

/-- **What is changed inside a node changes the document at the path of the node.** -/
theorem Doc.alter (hd : D.Doc r J) (ha : D.nodeAt r path = some a) :
    D.forest.Inside a r ∧ ∃ K, J.get? path = some K ∧ D.Doc a K ∧ ∀ (D' : Dom) (f : Json → Json),
      (∀ y, D.forest.Inside y r → ¬ D.forest.Inside y a → D.Alike D' y) → D'.Doc a (f K) →
        D'.Doc r (J.alter f path) := by
  induction path generalizing r J with
  | nil =>
    cases ha
    exact ⟨.refl, J, rfl, hd, fun D' f _ h => h⟩
  | cons i path ih =>
    obtain ⟨b, hb, ha⟩ := Option.bind_eq_some_iff.1 ha
    obtain ⟨c, hc, hb⟩ := Option.bind_eq_some_iff.1 hb
    cases hd with
    | scalar _ hk => simp [hk] at hc
    | @coll _ k xs hv hst hk ht htext =>
      have hm : D.Members r k xs := ⟨hv, hst, hk, ht, htext⟩
      -- the member on the path
      rw [hk, List.getElem?_map, Option.map_eq_some_iff] at hc
      obtain ⟨x, hx, rfl⟩ := hc
      have hmem := List.mem_of_getElem? hx
      rw [(hst x hmem).valueNode (hv x hmem)] at hb
      cases hb
      obtain ⟨hinside, K, hget, hK, halter⟩ := ih (hv x hmem) ha
      have hup : ∀ y, D.forest.Inside y x.node → D.forest.Inside y r := fun y hy =>
        (hy.trans (hst x hmem).inside).tail (hm.up hmem)
      refine ⟨hup a hinside, K, ?_, hK, fun D' f hs hf => ?_⟩
      · rw [Json.get?, hm.members, List.getElem?_map, hx]
        exact hget
      have hvalue : D'.Doc x.node (x.value.alter f path) := halter D' f (fun y hy hya => hs y (hup y hy) hya) hf
      have hm' := hm.modify (f := Json.alter f path) hx (fun y hy hyx => hs y hy fun hya => hyx (hya.trans hinside))
        hvalue
      rw [Json.alter, hm.map_members (fun ms => ms.modify i fun m => (m.1, Json.alter f path m.2)),
        ← map_modify (f := fun y => { y with value := y.value.alter f path }) Entry.pair _ fun _ => rfl]
      exact hm'.doc

/-! ## Paths in a document that is changed -/

theorem valueNode_inside (h : D.valueNode c = some b) : D.forest.Inside b c := by
  unfold valueNode at h
  split at h
  · exact .single ((D.forest.mem_kids b c).1 (List.mem_of_getElem? h))
  · cases h
    exact .refl

theorem nodeAt_inside (h : D.nodeAt r path = some a) : D.forest.Inside a r := by
  induction path generalizing r with
  | nil =>
    cases h
    exact .refl
  | cons i path ih =>
    obtain ⟨b, hb, ha⟩ := Option.bind_eq_some_iff.1 h
    obtain ⟨c, hc, hb⟩ := Option.bind_eq_some_iff.1 hb
    exact ((ih ha).trans (valueNode_inside hb)).tail ((D.forest.mem_kids c r).1 (List.mem_of_getElem? hc))

theorem nodeAt_append (D : Dom) (r : Addr) (path path' : List Nat) :
    D.nodeAt r (path ++ path') = (D.nodeAt r path).bind fun a => D.nodeAt a path' := by
  induction path generalizing r with
  | nil => rfl
  | cons i path ih =>
    rw [List.cons_append, nodeAt, nodeAt]
    simp only [ih, Option.bind_assoc]

/-- The path to a node does not depend on what is in the node. -/
theorem nodeAt_frame (ha : D.nodeAt r path = some a) (hs : ∀ y, D.forest.Inside y r → y ≠ a → D.Alike D' y)
    (ht : D'.type a = D.type a) (hp : D.type a ≠ .jdProperty) : D'.nodeAt r path = some a := by
  induction path generalizing r with
  | nil => exact ha
  | cons i path ih =>
    obtain ⟨b, hb, ha⟩ := Option.bind_eq_some_iff.1 ha
    obtain ⟨c, hc, hb⟩ := Option.bind_eq_some_iff.1 hb
    have hup : D.forest.up c = some r := (D.forest.mem_kids c r).1 (List.mem_of_getElem? hc)
    have hab : D.forest.Inside a b := nodeAt_inside ha
    have hbc : D.forest.Inside b c := valueNode_inside hb
    have hra : r ≠ a := by
      rintro rfl
      exact Forest.not_inside_child hup (hab.trans hbc)
    have hvalue : D'.valueNode c = some b := by
      by_cases hca : c = a
      · rw [valueNode, hca, if_neg hp] at hb
        rw [valueNode, hca, ht, if_neg hp, hb]
      · have hc := hs c (.single hup) hca
        rw [valueNode, hc.type, hc.kids]
        exact hb
    rw [nodeAt, (hs r .refl hra).kids, hc, Option.bind_some, hvalue, Option.bind_some]
    exact ih ha fun y hy hya => hs y ((hy.trans hbc).tail hup) hya

end Dom

end JsonDom
