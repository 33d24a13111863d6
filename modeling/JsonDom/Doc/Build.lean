import JsonDom.Doc.Access
import JsonDom.Doc.Edit

/-!
# Building documents

The calls of `jd_Node.c` are enough: with memory to spare they make any value of any node of a document, and
nothing else of the document changes (`buildable`). A member of an object takes two calls (`member_added`).
-/

namespace JsonDom

open Lib

variable {base : Addr → Option Cell} {w w' w'' : World} {D D' D'' : Dom} {J K : Json} {a b c r x : Addr}
  {e : Edit} {es fs : List Edit} {path : List Nat} {k : Kind}

theorem Session.append {cs ds : List Call} {n m : Nat} (h : Session w D cs w' D' n)
    (h' : Session w' D' ds w'' D'' m) : Session w D (cs ++ ds) w'' D'' (n + m) := by
  induction h with
  | nil => rwa [Nat.zero_add]
  | cons hrun heff _ ih =>
    rw [Nat.add_assoc]
    exact .cons hrun heff (ih h')

/-- The calls make `D'` of the document `D`: of the nodes that were there only `a` has other children, another
type or another text, and the new ones are inside of it. -/
structure Making (base : Addr → Option Cell) (w : World) (D : Dom) (a : Addr) (es : List Edit) (w' : World)
    (D' : Dom) : Prop where
  session : Session w D (es.map .edit) w' D' 0
  world : w' = { w with heap := w'.heap, mallocs := w'.mallocs }
  held : Held base w'.heap D'
  nodes : ∀ x ∈ D.forest.nodes, x ∈ D'.forest.nodes ∧ D'.forest.up x = D.forest.up x
  alike : ∀ x ∈ D.forest.nodes, x ≠ a → D.Alike D' x
  new : ∀ x ∈ D'.forest.nodes, x ∈ D.forest.nodes ∨ D'.forest.Inside x a

/-- `K` can be made of any node without children. -/
def Makes (base : Addr → Option Cell) (K : Json) : Prop :=
  ∀ w D a, w.Ample → Held base w.heap D → a ∈ D.forest.nodes → D.forest.kids a = [] →
    ∃ es w' D', Making base w D a es w' D' ∧ D'.Doc a K

theorem Held.call {P : Bool × Ptr → Dom → Prop} (hh : Held base w.heap D)
    (hrun : ∀ h, Holds h D → ∃ res h' k D',
      e.run { w with heap := h } = .ok (res, { w with heap := h', mallocs := k }) ∧ Holds h' D' ∧ P res D') :
    ∃ res g k D', e.run w = .ok (res, { w with heap := g, mallocs := k }) ∧ Held base g D' ∧ P res D' := by
  obtain ⟨h, hs, hhold⟩ := hh
  obtain ⟨res, h', k, D', hrun, hhold', hP⟩ := hrun h hhold
  obtain ⟨g, hrun', hheld⟩ := Held.lift e.framed hs hrun hhold'
  exact ⟨res, g, k, D', hrun', hheld, hP⟩

theorem Dom.Propertied.nodes {label : Bytes} {ok : Bool} (hp : D.Propertied a label ok D') :
    (∀ x ∈ D.forest.nodes, x ∈ D'.forest.nodes ∧ D'.forest.up x = D.forest.up x) ∧
      ∀ x ∈ D'.forest.nodes, x ∈ D.forest.nodes ∨ D'.forest.Inside x a := by
  cases hp with
  | refused => exact ⟨fun x hx => ⟨hx, rfl⟩, fun x hx => .inl hx⟩
  | @made l v type text h1 h2 hl hv hlv _ =>
    refine ⟨fun x hx => ⟨List.mem_cons_of_mem _ (List.mem_cons_of_mem _ hx), ?_⟩, fun x hx => ?_⟩
    · exact (Function.update_of_ne (ne_of_mem_of_not_mem hx hv) _ _).trans
        (Function.update_of_ne (ne_of_mem_of_not_mem hx hl) _ _)
    · simp only [set_forest, bear, relink_forest, add, Forest.hang, Forest.add, List.mem_cons] at hx
      rcases hx with rfl | rfl | hx
      · exact .inr (.single (Function.update_self _ _ _))
      · exact .inr (.single ((Function.update_of_ne hlv _ _).trans (Function.update_self _ _ _)))
      · exact .inl hx

namespace Making

theorem ample (hb : Making base w D a es w' D') (hw : w.Ample) : w'.Ample := by
  rw [hb.world]
  exact hw

theorem inside (hb : Making base w D a es w' D') (h : D.forest.Inside x r) : D'.forest.Inside x r := by
  induction h with
  | refl => exact .refl
  | tail _ hstep ih => exact ih.tail (((hb.nodes _ (D.forest.live _ _ hstep).1).2).trans hstep)

theorem trans (hb : Making base w D a es w' D') (hb' : Making base w' D' c fs w'' D'') (hnode : c ∈ D'.forest.nodes)
    (hc : c = a ∨ c ∉ D.forest.nodes) : Making base w D a (es ++ fs) w'' D'' where
  session := by
    rw [List.map_append]
    exact hb.session.append hb'.session
  world := by rw [hb'.world, hb.world]
  held := hb'.held
  nodes x hx := by
    obtain ⟨hx1, hup1⟩ := hb.nodes x hx
    obtain ⟨hx2, hup2⟩ := hb'.nodes x hx1
    exact ⟨hx2, hup2.trans hup1⟩
  alike x hx hxa := by
    have h1 := hb.alike x hx hxa
    have hxc : x ≠ c := by
      rintro rfl
      exact hc.elim hxa fun hn => hn hx
    have h2 := hb'.alike x (hb.nodes x hx).1 hxc
    exact ⟨h2.kids.trans h1.kids, h2.type.trans h1.type, h2.text.trans h1.text⟩
  new x hx := by
    rcases hb'.new x hx with hx | hx
    · exact (hb.new x hx).imp_right hb'.inside
    rcases hc with rfl | hc
    · exact .inr hx
    · exact .inr (hx.trans (hb'.inside ((hb.new c hnode).resolve_left hc)))

theorem call {res : Bool × Ptr} {g : Store Cell} {n : Nat}
    (hrun : e.run w = .ok (res, { w with heap := g, mallocs := n })) (heff : D.Edited e res D') (hh : Held base g D')
    (ht : ∀ x ∈ D.forest.nodes, e.Touches D x → x = a)
    (hn : ∀ x ∈ D.forest.nodes, x ∈ D'.forest.nodes ∧ D'.forest.up x = D.forest.up x)
    (hnew : ∀ x ∈ D'.forest.nodes, x ∈ D.forest.nodes ∨ D'.forest.Inside x a) :
    Making base w D a [e] { w with heap := g, mallocs := n } D' where
  session := Session.cons (c := .edit e) hrun heff .nil
  world := rfl
  held := hh
  nodes := hn
  alike x hx hxa := heff.alike hx fun htouch => hxa (ht x hx htouch)
  new := hnew

theorem create (hw : w.Ample) (hh : Held base w.heap D) (ha : a ∈ D.forest.nodes) (before : Ptr)
    (hb : ∀ b, before = some b → b ∈ D.forest.kids a) :
    ∃ c w' D', Making base w D a [.create (some a) before] w' D' ∧
      (Edit.create (some a) before).run w = .ok ((true, some c), w') ∧ c ∉ D.forest.nodes ∧ c ∈ D'.forest.nodes ∧
      D'.forest.kids a = insertBefore before c (D.forest.kids a) ∧ D'.forest.kids c = [] ∧
      D'.type a = D.type a ∧ D'.text a = D.text a := by
  obtain ⟨res, g, n, D', hrun, hheld, c, hcan, rfl, hc, rfl⟩ := @Held.call base w D (.create (some a) before)
    (fun res D' => ∃ c hcan, res = (true, some c) ∧ c ∉ D.forest.nodes ∧ D' = D.bear c a before hcan) hh
    fun h hhold => by
      obtain ⟨h', hcan, hrun, hhold'⟩ := @Holds.createChild _ { w with heap := h } _ _ hhold (hw _) ha hb
      have hfresh := @Represents.fresh { w with heap := h } _ hhold.represents
      exact ⟨_, _, _, _, M.bind_ok hrun, hhold', _, hcan, rfl, hfresh, rfl⟩
  have hac : a ≠ c := ne_of_mem_of_not_mem ha hc
  refine ⟨c, _, _, call hrun (.child hcan hc) hheld (fun x _ ht => (Option.some.inj ht).symm) (fun x hx => ?_)
    (fun x hx => ?_), hrun, hc, List.mem_cons_self, ?_, ?_, ?_, ?_⟩
  · refine ⟨List.mem_cons_of_mem _ hx, ?_⟩
    exact Function.update_of_ne (ne_of_mem_of_not_mem hx hc) _ _
  · rcases List.mem_cons.1 hx with rfl | hx
    · exact .inr (.single (Function.update_self _ _ _))
    · exact .inl hx
  · exact Function.update_self _ _ _
  · exact (Function.update_of_ne hac.symm _ _).trans (@Forest.kids_fresh D.forest _ hc)
  · exact Function.update_of_ne hac _ _
  · exact Function.update_of_ne hac _ _

theorem property (hw : w.Ample) (hh : Held base w.heap D) (ha : a ∈ D.forest.nodes) (hk : D.forest.kids a = [])
    (label : Bytes) :
    ∃ l v w' D', Making base w D a [.makeNullProperty a label] w' D' ∧
      (Edit.makeNullProperty a label).run w = .ok ((true, none), w') ∧ v ∉ D.forest.nodes ∧
      D'.Labelled a l v label := by
  obtain ⟨res, g, n, D', hrun, hheld, rfl, hprop, l, v, hv, hlab⟩ := @Held.call base w D (.makeNullProperty a label)
    (fun res D' => res = (true, none) ∧ D.Propertied a label true D' ∧
      ∃ l v, v ∉ D.forest.nodes ∧ D'.Labelled a l v label) hh
    fun h hhold => by
      obtain ⟨ok, h', n, D', hrun, hhold', hprop, hgranted⟩ := @Holds.nullProperty _ { w with heap := h } _ hhold
        ha hk label fun _ => hw _
      obtain ⟨rfl, hlab⟩ := hgranted (hw _) (hw _)
      exact ⟨_, _, _, _, M.bind_ok hrun, hhold', rfl, hprop, hlab⟩
  obtain ⟨hn, hnew⟩ := hprop.nodes
  exact ⟨l, v, _, D', call hrun (.property hprop) hheld (fun x _ ht => ht) hn hnew, hrun, hv, hlab⟩

theorem plain (hh : Held base w.heap D) (ha : a ∈ D.forest.nodes) (setter : PlainSetter) :
    ∃ w', Making base w D a [.setPlain a setter] w' (D.set a setter.type none) := by
  obtain ⟨res, g, n, D', hrun, hheld, rfl, rfl⟩ := @Held.call base w D (.setPlain a setter)
    (fun res D' => res = (true, none) ∧ D' = D.set a setter.type none) hh
    fun h hhold => by
      obtain ⟨h', hrun, hhold'⟩ := @Holds.setPlain _ { w with heap := h } _ hhold ha setter.type
      rw [← setter.run_eq] at hrun
      exact ⟨_, _, _, _, M.bind_ok hrun, hhold', rfl, rfl⟩
  exact ⟨_, call hrun .plain hheld (fun x _ ht => ht) (fun x hx => ⟨hx, rfl⟩) fun x hx => .inl hx⟩

theorem text (hw : w.Ample) (hh : Held base w.heap D) (ha : a ∈ D.forest.nodes) (type : TextType) (value : Bytes) :
    ∃ w', Making base w D a [.copy a type value] w' (D.set a type.type (some value)) := by
  obtain ⟨res, g, n, D', hrun, hheld, rfl, rfl⟩ := @Held.call base w D (.copy a type value)
    (fun res D' => res = (true, none) ∧ D' = D.set a type.type (some value)) hh
    fun h hhold => by
      obtain ⟨h', hrun, hhold'⟩ := @Holds.copy _ { w with heap := h } _ hhold ha (hw _) value type
      exact ⟨_, _, _, _, M.bind_ok hrun, hhold', rfl, rfl⟩
  exact ⟨_, call hrun .copied hheld (fun x _ ht => ht) (fun x hx => ⟨hx, rfl⟩) fun x hx => .inl hx⟩

end Making

theorem makes_leaf (hm : K.members = []) : Makes base K := by
  intro w D a hw hh ha hk
  have hplain : ∀ setter : PlainSetter, setter.type = K.type → K.text = none →
      ∃ es w' D', Making base w D a es w' D' ∧ D'.Doc a K := by
    intro setter ht hs
    obtain ⟨w', hb⟩ := Making.plain hh ha setter
    exact ⟨_, w', _, hb, Dom.doc_leaf hk hm (by rw [Dom.set_type_self, ht]) (by rw [Dom.set_text_self, hs])⟩
  have htext : ∀ (type : TextType) (s : Bytes), type.type = K.type → K.text = some s →
      ∃ es w' D', Making base w D a es w' D' ∧ D'.Doc a K := by
    intro type s ht hs
    obtain ⟨w', hb⟩ := Making.text hw hh ha type s
    exact ⟨_, w', _, hb, Dom.doc_leaf hk hm (by rw [Dom.set_type_self, ht]) (by rw [Dom.set_text_self, hs])⟩
  cases K with
  | null => exact hplain .setNull rfl rfl
  | true => exact hplain .setTrue rfl rfl
  | false => exact hplain .setFalse rfl rfl
  | str s => exact htext .string s rfl rfl
  | int s => exact htext .integer s rfl rfl
  | float s => exact htext .float s rfl rfl
  | arr xs => exact hplain .makeArray rfl rfl
  | obj ms => exact hplain .makeObject rfl rfl

theorem Kind.insertMember (k : Kind) (ms : List (Bytes × Json)) (m : Bytes × Json) :
    (k.build ms).insertMember ms.length m = k.build (ms ++ [m]) := by
  cases k with
  | obj => simp [Json.insertMember, Json.withMembers, Json.members, Kind.build]
  | arr =>
    have hlength : ms.length = (ms.map (·.2)).length := (List.length_map _).symm
    simp only [Json.insertMember, Json.withMembers, Json.members, Kind.build, List.map_insertIdx, List.map_map]
    show Json.arr ((ms.map (·.2)).insertIdx ms.length m.2) = _
    rw [hlength, List.insertIdx_length_self, List.map_append]
    rfl

theorem Dom.Doc.kids_length {ms : List (Bytes × Json)} (hd : D.Doc a (k.build ms)) :
    (D.forest.kids a).length = ms.length := by
  obtain ⟨xs, hx, hm⟩ := hd.collection (hd.type_eq.trans (Kind.type_build k ms))
  have hlength := congrArg (fun J => J.members.length) hx
  cases k <;> simpa [Kind.build, Json.members, hm.kids] using hlength.symm

theorem Making.labelled (hw : w.Ample) (hh : Held base w.heap D) (ha : a ∈ D.forest.nodes) (before : Ptr)
    (hb : ∀ b, before = some b → b ∈ D.forest.kids a) (label : Bytes) :
    ∃ c l v w1 w' D', Making base w D a [.create (some a) before, .makeNullProperty c label] w' D' ∧
      (Edit.create (some a) before).run w = .ok ((true, some c), w1) ∧
      (Edit.makeNullProperty c label).run w1 = .ok ((true, none), w') ∧
      v ∉ D.forest.nodes ∧ D'.forest.kids a = insertBefore before c (D.forest.kids a) ∧ D'.Labelled c l v label ∧
      D'.type a = D.type a ∧ D'.text a = D.text a := by
  obtain ⟨c, w1, D1, hb1, hrun1, hc, hc1, hkids, hleaf, htype, htext⟩ := Making.create hw hh ha before hb
  obtain ⟨l, v, w', D', hb2, hrun2, hv, hlab⟩ := Making.property (hb1.ample hw) hb1.held hc1 hleaf label
  have halike : D1.Alike D' a := hb2.alike a (hb1.nodes a ha).1 (ne_of_mem_of_not_mem ha hc)
  exact ⟨c, l, v, w1, w', D', hb1.trans hb2 hc1 (.inr hc), hrun1, hrun2, fun hm => hv (hb1.nodes v hm).1,
    halike.kids.trans hkids, hlab, halike.type.trans htype, halike.text.trans htext⟩

/-- A member is made of a new child, and in an object of the value behind the label. -/
theorem makes_member {m : Bytes × Json} (hm : Makes base m.2) {ms : List (Bytes × Json)} (hw : w.Ample)
    (hh : Held base w.heap D) (ha : a ∈ D.forest.nodes) (hd : D.Doc a (k.build ms)) :
    ∃ es w' D', Making base w D a es w' D' ∧ D'.Doc a (k.build (ms ++ [m])) := by
  have ht : D.type a = k.type := hd.type_eq.trans (Kind.type_build k ms)
  have hplace : place none (D.forest.kids a) = ms.length := hd.kids_length
  -- a new child of `a`, in which the value is made
  have hinsert : ∀ {x : Entry} {es : List Edit} {w' : World} {D' : Dom}, Making base w D a es w' D' →
      D'.forest.kids a = insertBefore none x.child (D.forest.kids a) → D'.type a = D.type a → D'.text a = D.text a →
      D'.Doc x.node x.value → D'.Stands x k → D'.Doc a (k.build (ms ++ [x.pair])) := by
    intro x es w' D' hmk hkids htype htext hx hst
    rw [← Kind.insertMember, ← hplace]
    exact hd.insert ht nofun hkids htype htext (fun y hy hya => hmk.alike y (hy.node ha) hya) hx hst
  cases k with
  | arr =>
    obtain ⟨c, w1, D1, hb1, -, hc, hc1, hkids, hleaf, htype, htext⟩ := Making.create hw hh ha none nofun
    obtain ⟨es, w', D', hb2, hdoc⟩ := hm w1 D1 c (hb1.ample hw) hb1.held hc1 hleaf
    have halike : D1.Alike D' a := hb2.alike a (hb1.nodes a ha).1 (ne_of_mem_of_not_mem ha hc)
    have hb := hb1.trans hb2 hc1 (.inr hc)
    have hd' := @hinsert ⟨[], m.2, c, c⟩ _ _ _ hb (halike.kids.trans hkids) (halike.type.trans htype)
      (halike.text.trans htext) hdoc ⟨rfl, rfl⟩
    refine ⟨_, w', D', hb, ?_⟩
    simpa [Kind.build, Entry.pair] using hd'
  | obj =>
    obtain ⟨c, l, v, w0, w1, D1, hb1, -, -, hv, hkids, hlab, htype, htext⟩ :=
      Making.labelled hw hh ha none nofun m.1
    have hup : ∀ x ∈ [l, v], x ∈ D1.forest.nodes ∧ c ∈ D1.forest.nodes := fun x hx =>
      D1.forest.live x c ((D1.forest.mem_kids x c).1 (hlab.kids ▸ hx))
    obtain ⟨es, w', D', hb2, hdoc⟩ := hm w1 D1 v (hb1.ample hw) hb1.held (hup v (by simp)).1 hlab.value.1
    -- what is around the value is as it was
    have hcv : c ≠ v := fun he => D1.forest.not_mem_self c ((D1.forest.mem_kids c c).1 (by simp [hlab.kids, ← he]))
    have hlv : l ≠ v := by
      have hnodup := D1.forest.nodup c
      rw [hlab.kids] at hnodup
      simpa using hnodup
    have halike : D1.Alike D' a := hb2.alike a (hb1.nodes a ha).1 (ne_of_mem_of_not_mem ha hv)
    have hchild : D1.Alike D' c := hb2.alike c (hup v (by simp)).2 hcv
    have hlabel : D1.Alike D' l := hb2.alike l (hup l (by simp)).1 hlv
    have hb := hb1.trans hb2 (hup v (by simp)).1 (.inr hv)
    refine ⟨_, w', D', hb, ?_⟩
    refine @hinsert ⟨m.1, m.2, c, v⟩ _ _ _ hb (halike.kids.trans hkids) (halike.type.trans htype)
      (halike.text.trans htext) hdoc ⟨l, hchild.kids.trans hlab.kids, hchild.type.trans hlab.property.1,
        hchild.text.trans hlab.property.2, hlabel.kids.trans hlab.label.1, hlabel.type.trans hlab.label.2.1,
        hlabel.text.trans hlab.label.2.2⟩

/-- **Every value can be made** of a node without children. -/
theorem makes (hK : K.NoNul) : Makes base K := by
  induction hK with
  | @scalar K hK _ =>
    apply makes_leaf
    cases K with
    | arr | obj => exact absurd trivial hK
    | _ => rfl
  | @coll k ms _ _ ih =>
    intro w D a hw hh ha hk
    -- by induction on the members that are made already
    have hpart : ∀ ms', ms' <+: ms → ∃ es w' D', Making base w D a es w' D' ∧ D'.Doc a (k.build ms') := by
      intro ms'
      induction ms' using List.reverseRecOn with
      | nil => exact fun _ => makes_leaf (by cases k <;> rfl) w D a hw hh ha hk
      | append_singleton ms' m ih' =>
        intro hpre
        obtain ⟨es, w1, D1, hb1, hd1⟩ := ih' ((List.prefix_append _ _).trans hpre)
        obtain ⟨fs, w2, D2, hb2, hd2⟩ := makes_member (ih m (hpre.subset (by simp))) (hb1.ample hw) hb1.held
          (hb1.nodes a ha).1 hd1
        exact ⟨_, w2, D2, hb1.trans hb2 (hb1.nodes a ha).1 (.inl rfl), hd2⟩
    exact hpart ms List.prefix_rfl

/-! ## Making room -/

/-- The calls take everything out of the node `a` and do nothing else. -/
structure Emptying (base : Addr → Option Cell) (w : World) (D : Dom) (a : Addr) (es : List Edit) (w' : World)
    (D' : Dom) : Prop where
  session : Session w D (es.map .edit) w' D' 0
  world : w' = { w with heap := w'.heap, mallocs := w'.mallocs }
  held : Held base w'.heap D'
  node : a ∈ D'.forest.nodes
  leaf : D'.forest.kids a = []
  kept : ∀ x ∈ D.forest.nodes, ¬ D.forest.Inside x a → x ∈ D'.forest.nodes ∧ D.Alike D' x

/-- The document without the tree of the child `c`. -/
noncomputable def Dom.without (D : Dom) (c : Addr) : Dom :=
  (D.relink (D.forest.unhang c)).relink ((D.forest.unhang c).remove c (D.forest.unhang_root c))

theorem Dom.mem_without : x ∈ (D.without c).forest.nodes ↔ x ∈ D.forest.nodes ∧ ¬ D.forest.Inside x c := by
  rw [← Forest.inside_unhang]
  exact Forest.mem_remove (D.forest.unhang_root c)

theorem Dom.kids_without (h : ¬ D.forest.Inside x c) : (D.without c).forest.kids x = (D.forest.kids x).erase c :=
  if_neg (mt (Forest.inside_unhang _ _ _).1 h)

open Classical in
theorem Dom.inside_without (h : (D.without c).forest.Inside x a) : D.forest.Inside x a := by
  refine Relation.ReflTransGen.mono (fun y q hy => ?_) x a h
  change (if (D.forest.unhang c).Inside y c then none else Function.update D.forest.up c none y) = some q at hy
  by_cases hyc : y = c
  · simp [hyc] at hy
  · split at hy
    · cases hy
    · rwa [Function.update_of_ne hyc] at hy

theorem Held.discard (hh : Held base w.heap D) (hc : c ∈ D.forest.nodes) :
    ∃ g, Session w D [.edit (.emancipate c), .edit (.destroy c)] { w with heap := g } (D.without c) 0 ∧
      Held base g (D.without c) := by
  obtain ⟨h, hs, hhold⟩ := hh
  obtain ⟨h1, hrun1, hhold1⟩ := @Holds.emancipate _ { w with heap := h } _ hhold hc
  obtain ⟨g1, hrun1, k1, hs1, hhold1⟩ := Held.lift (Edit.framed (.emancipate c)) hs (M.bind_ok hrun1) hhold1
  obtain ⟨h2, hrun2, hhold2⟩ := @Holds.destroy _ { w with heap := k1 } _ hhold1 hc (D.forest.unhang_root c)
  have hs1 : k1.Splits base ({ w with heap := g1 } : World).heap := hs1
  obtain ⟨g2, hrun2, hheld⟩ := Held.lift (Edit.framed (.destroy c)) hs1 (M.bind_ok hrun2) hhold2
  refine ⟨g2, ?_, hheld⟩
  exact Session.cons (c := .edit (.emancipate c)) hrun1 .emancipated
    (Session.cons (c := .edit (.destroy c)) hrun2 (.destroyed (D.forest.unhang_root c)) .nil)

theorem empties (hh : Held base w.heap D) (ha : a ∈ D.forest.nodes) :
    ∃ es w' D', Emptying base w D a es w' D' := by
  induction hk : D.forest.kids a generalizing w D with
  | nil => exact ⟨[], w, D, .nil, rfl, hh, ha, hk, fun x hx _ => ⟨hx, rfl, rfl, rfl⟩⟩
  | cons c cs ih =>
    have hup : D.forest.up c = some a := (D.forest.mem_kids c a).1 (by simp [hk])
    obtain ⟨g, hsession, hheld⟩ := hh.discard (D.forest.live c a hup).1
    have hac : ¬ D.forest.Inside a c := Forest.not_inside_child hup
    have hk' : (D.without c).forest.kids a = cs := by
      rw [Dom.kids_without hac, hk, List.erase_cons_head]
    obtain ⟨es, w', D', hb⟩ := @ih { w with heap := g } _ hheld (Dom.mem_without.2 ⟨ha, hac⟩) hk'
    refine ⟨.emancipate c :: .destroy c :: es, w', D', hsession.append hb.session, hb.world, hb.held, hb.node,
      hb.leaf, fun x hx hxa => ?_⟩
    have hxc : ¬ D.forest.Inside x c := fun hin => hxa (hin.tail hup)
    obtain ⟨hx', halike⟩ := hb.kept x (Dom.mem_without.2 ⟨hx, hxc⟩) fun hin => hxa (Dom.inside_without hin)
    -- only the list of `a` has lost a child
    have hkids : (D.without c).forest.kids x = D.forest.kids x := by
      rw [Dom.kids_without hxc]
      apply List.erase_of_not_mem
      intro hm
      rw [D.forest.mem_kids, hup] at hm
      exact hxa (Option.some.inj hm ▸ .refl)
    exact ⟨hx', halike.kids.trans hkids, halike.type, halike.text⟩

/-! ## The main results -/

/-- **Any value can be put at any place.** -/
theorem buildable (hw : w.Ample) (hh : Held base w.heap D) (ha : a ∈ D.forest.nodes) (hK : K.NoNul) :
    ∃ (es : List Edit) (w' : World) (D' : Dom), Session w D (es.map .edit) w' D' 0 ∧
      w' = { w with heap := w'.heap, mallocs := w'.mallocs } ∧ Held base w'.heap D' ∧
      w'.heap.live.card + D.size = w.heap.live.card + D'.size ∧ D'.Doc a K ∧
      ∀ r ∈ D.forest.nodes, ∀ J, D.Doc r J →
        ((∀ y, D.forest.Inside y r → ¬ D.forest.Inside y a) → D'.Doc r J) ∧
        ∀ path, D.nodeAt r path = some a → D'.Doc r (J.alter (fun _ => K) path) := by
  obtain ⟨es, w1, D1, he⟩ := empties hh ha
  have hw1 : w1.Ample := by
    rw [he.world]
    exact hw
  obtain ⟨fs, w2, D2, hm, hdoc⟩ := makes hK w1 D1 a hw1 he.held he.node he.leaf
  have halike : ∀ x ∈ D.forest.nodes, ¬ D.forest.Inside x a → D.Alike D2 x := by
    intro x hx hxa
    obtain ⟨hx1, h1⟩ := he.kept x hx hxa
    have h2 := hm.alike x hx1 fun hxa' => hxa (hxa' ▸ .refl)
    exact ⟨h2.kids.trans h1.kids, h2.type.trans h1.type, h2.text.trans h1.text⟩
  refine ⟨es ++ fs, w2, D2, ?_, by rw [hm.world, he.world], hm.held, hh.card_live_eq hm.held, hdoc, fun r hr J hd =>
    ⟨fun hout => ?_, fun path hpath => ?_⟩⟩
  · rw [List.map_append]
    exact he.session.append hm.session
  · exact hd.frame fun y hy => halike y (hy.node hr) (hout y hy)
  · obtain ⟨-, L, -, -, halter⟩ := hd.alter hpath
    exact halter D2 _ (fun y hy hya => halike y (hy.node hr) hya) hdoc

/-- The null of the first document becomes an array of a null. -/
theorem buildable_room : ∃ (es : List Edit) (w' : World) (D' : Dom),
    Session roomWorld roomDom (es.map .edit) w' D' 0 ∧ Held roomBase w'.heap D' ∧
      D'.Doc 0 (.arr [.obj [(cs "k", .str (cs "v"))], .arr [.null]]) ∧ D'.Doc 8 .true := by
  have hK : (Json.arr [.null]).NoNul := by
    refine @Json.NoNul.coll .arr [([], .null)] (fun m hm => ?_) nofun
    obtain rfl := List.mem_singleton.1 hm
    exact .scalar id nofun
  obtain ⟨es, w', D', hs, -, hheld, -, -, hdoc⟩ :=
    buildable (w := roomWorld) (fun _ => rfl) room_held (by decide : 7 ∈ roomForest.nodes) hK
  refine ⟨es, w', D', hs, hheld, (hdoc 0 (by decide) _ room_doc).2 [1] rfl, ?_⟩
  refine (hdoc 8 (by decide) _ room_true).1 fun y hy hin => ?_
  obtain rfl := room_alone hy
  obtain h | ⟨b, hb, -⟩ := hin.cases_head
  · cases h
  · cases hb

/-- **The life of a document**: it is made, printed and destroyed, and the memory is as it was. -/
theorem document_life {indent : Int} (hw : w.Ample) (hK : K.NoNul) (hfit : Fits indent K.levels) :
    ∃ (r : Addr) (es : List Edit) (w' : World) (D : Dom),
      (∃ w0, (Edit.create none none).run w = .ok ((true, some r), w0)) ∧
      Session w .empty (.edit (.create none none) :: es.map .edit) w' D 0 ∧ D.Doc r K ∧
      PrintsOut w' r indent (K.printed indent) ∧
      (K.Valid → ∀ w2 : World, w2.Ample → w2.input = K.printed indent →
        ∃ t w2', Returns w2 (true, some t.addr) w2' ∧ IsTree w2'.heap t K) ∧
      ∃ w'', jdNodeDestroy (some r) { w' with stdout := w'.stdout ++ K.printed indent } = .ok (none, w'') ∧
        w''.stdout = w.stdout ++ K.printed indent ∧ ∀ x, w''.heap.get? x = w.heap.get? x := by
  have hh : Held w.heap.get? w.heap .empty := by
    have hs := Store.Splits.restrict (S := fun _ => False) w.heap
    refine ⟨_, by simpa using hs, ?_⟩
    exact Holds.empty.congr fun x => by simp [Store.get?_restrict]; rfl
  -- the root
  obtain ⟨_, g, n, D1, hrun, hh1, r, rfl, rfl⟩ := @Held.call _ w _ (.create none none)
    (fun res D' => ∃ r, res = (true, some r) ∧ D' = Dom.empty.add r) hh fun h hhold => by
      obtain ⟨h', hrun, hhold'⟩ := @Holds.createRoot _ { w with heap := h } hhold (hw _) none
      exact ⟨_, _, _, _, M.bind_ok hrun, hhold', _, rfl, rfl⟩
  have hr : r ∈ (Dom.empty.add r).forest.nodes := List.mem_cons_self
  obtain ⟨es, w2, D2, hm, hdoc⟩ := makes hK { w with heap := g, mallocs := n } _ r hw hh1 hr rfl
  obtain ⟨hr2, hup⟩ := hm.nodes r hr
  obtain ⟨hprint, hreparse⟩ := hm.held.reparsed hr2 hdoc hK hfit
  -- and the end
  have hheld : Held w.heap.get? ({ w2 with stdout := w2.stdout ++ K.printed indent } : World).heap D2 := hm.held
  obtain ⟨h2, hs2, hhold2⟩ := hheld
  obtain ⟨h3, hrun3, hhold3⟩ := @Holds.destroy D2
    { w2 with stdout := w2.stdout ++ K.printed indent, heap := h2 } _ hhold2 hr2 hup
  obtain ⟨g3, hrun3, hheld3⟩ := Held.lift (Framed.destroy (some r)) hs2 hrun3 hhold3
  have hnone : ∀ y, y ∉ (D2.relink (D2.forest.remove r hup)).forest.nodes := by
    intro y hy
    obtain ⟨hy, hout⟩ := (Forest.mem_remove hup).1 hy
    rcases hm.new y hy with hy | hy
    · rw [List.mem_singleton.1 hy] at hout
      exact hout .refl
    · exact hout hy
  have hstdout : w2.stdout = w.stdout := by rw [hm.world]
  refine ⟨r, es, w2, D2, ⟨_, hrun⟩, ?_, hdoc, hprint, hreparse, _, hrun3, ?_, hheld3.bare hnone⟩
  · exact Session.cons (c := .edit (.create none none)) hrun (.root List.not_mem_nil) hm.session
  · show w2.stdout ++ _ = _
    rw [hstdout]

/-- A string is made. -/
theorem document_life_string : ∃ (r : Addr) (es : List Edit) (w' : World) (D : Dom),
    Session (World.start [] .eof) .empty (.edit (.create none none) :: es.map .edit) w' D 0 ∧
      PrintsOut w' r (-1) ((Json.str (cs "a")).printed (-1)) := by
  have hK : (Json.str (cs "a")).NoNul := .scalar id fun s hs => by cases hs; decide
  obtain ⟨r, es, w', D, -, hs, -, hp, -⟩ := @document_life _ _ (-1) (start_ample [] .eof) hK (.inl (by decide))
  exact ⟨r, es, w', D, hs, hp⟩

/-! ## A member of an object -/

/-- **A member is added**: a new child that is made a null property is a member with the value null, which
stands where the child does and is the last child of it. -/
theorem member_added {before : Ptr} {label : Bytes} (hw : w.Ample) (hh : Held base w.heap D)
    (ha : a ∈ D.forest.nodes) (ht : D.type a = .jdObject) (hb : ∀ b, before = some b → b ∈ D.forest.kids a) :
    ∃ (c v : Addr) (w1 w2 : World) (D' : Dom), (Edit.create (some a) before).run w = .ok ((true, some c), w1) ∧
      (Edit.makeNullProperty c label).run w1 = .ok ((true, none), w2) ∧
      Getter.lastChild (some c) w2 = .ok (some v, w2) ∧ Held base w2.heap D' ∧
      ∀ r ∈ D.forest.nodes, ∀ J, D.Doc r J →
        ((∀ y, D.forest.Inside y r → y ≠ a) → D'.Doc r J) ∧
        ∀ path, D.nodeAt r path = some a →
          D'.Doc r (J.alter (.insertMember (place before (D.forest.kids a)) (label, .null)) path) ∧
          D'.nodeAt r (path ++ [place before (D.forest.kids a)]) = some v := by
  obtain ⟨c, l, v, w1, w2, D', hm, hrun1, hrun2, -, hkids, hlab, htype, htext⟩ :=
    Making.labelled hw hh ha before hb label
  have hvc : v ∈ D'.forest.kids c := by simp [hlab.kids]
  have hc' : c ∈ D'.forest.nodes := (D'.forest.live v c ((D'.forest.mem_kids v c).1 hvc)).2
  obtain ⟨n, hn, hlinks, -⟩ := hm.held.node hc'
  rw [Forest.links_mem hc', Option.some.injEq] at hlinks
  refine ⟨c, v, w1, w2, D', hrun1, hrun2, ?_, hm.held, fun r hr J hd => ⟨fun hout => ?_, fun path hpath => ⟨?_, ?_⟩⟩⟩
  · rw [lastChild_eq]
    refine getRelation_run hn (by decide) ((congrArg Links.last hlinks).symm.trans ?_)
    rw [hlab.kids]
    rfl
  · exact hd.frame fun y hy => hm.alike y (hy.node hr) (hout y hy)
  · obtain ⟨hin, K, -, hK, halter⟩ := hd.alter hpath
    refine halter D' _ (fun y hy hya => hm.alike y (hy.node hr) fun he => hya (he ▸ .refl)) ?_
    have hvalue : D'.Doc v .null := Dom.doc_leaf hlab.value.1 rfl hlab.value.2.1 hlab.value.2.2
    exact @Dom.Doc.insert D D' K a .obj ⟨label, .null, c, v⟩ before hK ht hb hkids htype htext
      (fun y hy hya => hm.alike y (hy.node ha) hya) hvalue
      ⟨l, hlab.kids, hlab.property.1, hlab.property.2, hlab.label.1, hlab.label.2.1, hlab.label.2.2⟩
  · have hpath' : D'.nodeAt r path = some a :=
      Dom.nodeAt_frame hpath (fun y hy hya => hm.alike y (hy.node hr) hya) htype (by simp [ht])
    have hget : (D'.forest.kids a)[place before (D.forest.kids a)]? = some c := by
      rw [hkids, insertBefore_eq hb, List.getElem?_insertIdx_self, if_pos (place_le hb)]
    have hvalue : D'.valueNode c = some v := by
      rw [Dom.valueNode, if_pos hlab.property.1, hlab.kids]
      rfl
    rw [Dom.nodeAt_append, hpath', Option.bind_some, Dom.nodeAt, hget, Option.bind_some, hvalue]
    rfl

/-- The object of the first document gets a member in front of the one it has. -/
theorem member_added_room : ∃ (w1 w2 : World) (c v : Addr) (D' : Dom),
    (Edit.create (some 1) (some 2)).run roomWorld = .ok ((true, some c), w1) ∧
      (Edit.makeNullProperty c (cs "a")).run w1 = .ok ((true, none), w2) ∧
      Getter.lastChild (some c) w2 = .ok (some v, w2) ∧ D'.nodeAt 0 [0, 0] = some v ∧
      D'.Doc 0 (.arr [.obj [(cs "a", .null), (cs "k", .str (cs "v"))], .null]) ∧ D'.Doc 8 .true := by
  obtain ⟨c, v, w1, w2, D', h1, h2, h3, -, hdoc⟩ := @member_added roomBase roomWorld roomDom 1 (some 2) (cs "a")
    (fun _ => rfl) room_held (by decide : 1 ∈ roomForest.nodes) rfl fun b hb => by cases hb; decide
  obtain ⟨hroot, hnode⟩ := (hdoc 0 (by decide) _ room_doc).2 [0] rfl
  refine ⟨w1, w2, c, v, D', h1, h2, h3, hnode, hroot, ?_⟩
  refine (hdoc 8 (by decide) _ room_true).1 fun y hy => ?_
  rw [room_alone hy]
  decide

end JsonDom
