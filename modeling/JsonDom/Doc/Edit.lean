import JsonDom.Doc.Reformat
import JsonDom.Doc.Session
import JsonDom.Spec.Path

/-!
# Editing a document

What a call of `jd_Node.c` on a node does to the document the node stands in: the value at the path of the
node is another one, or has a member more or less (`edit_document`). Nothing else in the document changes,
and no other document does.
-/

namespace JsonDom

open Lib

variable {base : Addr → Option Cell} {w : World} {D D' : Dom} {J K : Json} {a r x : Addr} {e : Edit}
  {res : Bool × Ptr} {path : List Nat} {k : Kind}

/-- The value a setter is for. -/
def PlainSetter.json : PlainSetter → Json
  | setNull => .null
  | setTrue => .true
  | setFalse => .false
  | makeArray => .arr []
  | makeObject => .obj []

def TextType.json : TextType → Bytes → Json
  | .string => .str
  | .integer => .int
  | .float => .float

/-- The nodes whose children, type or text the call changes. -/
def Edit.Touches (D : Dom) : Edit → Addr → Prop
  | create parent _, y => parent = some y
  | adopt _ parent _, y => y = parent
  | insertElement array _ _, y => y = array
  | emancipate node, y => D.forest.up node = some y
  | destroy node, y => D.forest.Inside y node
  | setPlain node _, y | copy node _ _, y | takeString node _, y | makeNullProperty node _, y => y = node

namespace Dom

theorem add_alike (h : x ≠ r) : D.Alike (D.add r) x :=
  ⟨rfl, Function.update_of_ne h _ _, Function.update_of_ne h _ _⟩

theorem Propertied.alike {label : Bytes} {ok : Bool} (h : D.Propertied a label ok D') (hx : x ∈ D.forest.nodes)
    (hxa : x ≠ a) : D.Alike D' x := by
  cases h with
  | refused => exact ⟨rfl, set_type_ne hxa, set_text_ne hxa⟩
  | @made l v type text h1 h2 hl hv _ _ =>
    have hxl : x ≠ l := ne_of_mem_of_not_mem hx hl
    have hxv : x ≠ v := ne_of_mem_of_not_mem hx hv
    refine ⟨?_, ?_, ?_⟩
    · simp [bear, Forest.hang, add, Forest.add, hxa]
    · simp [bear, add, hxa, hxl, hxv]
    · simp [bear, add, hxa, hxl, hxv]

/-- **What a call does not touch it leaves as it is.** -/
theorem Edited.alike (h : D.Edited e res D') (hx : x ∈ D.forest.nodes) (ht : ¬ e.Touches D x) : D.Alike D' x := by
  have hfresh : ∀ {y}, y ∉ D.forest.nodes → x ≠ y := fun hy => ne_of_mem_of_not_mem hx hy
  cases h with
  | notCreated | notTaken => exact ⟨rfl, rfl, rfl⟩
  | root hr => exact add_alike (hfresh hr)
  | child hc hr =>
    have hxp : x ≠ _ := fun he => ht (congrArg some he.symm)
    exact ⟨Function.update_of_ne hxp _ _, Function.update_of_ne (hfresh hr) _ _,
      Function.update_of_ne (hfresh hr) _ _⟩
  | adopted hc | inserted hc => exact ⟨Function.update_of_ne ht _ _, rfl, rfl⟩
  | emancipated =>
    refine ⟨List.erase_of_not_mem fun hm => ht ?_, rfl, rfl⟩
    exact (D.forest.mem_kids _ _).1 hm
  | destroyed hr => exact ⟨if_neg ht, rfl, rfl⟩
  | plain | copied | notCopied | taken => exact ⟨rfl, set_type_ne ht, set_text_ne ht⟩
  | property hp => exact hp.alike hx ht

theorem doc_leaf (hk : D.forest.kids a = []) (hm : J.members = []) (ht : D.type a = J.type)
    (hs : D.text a = J.text) : D.Doc a J := by
  cases J with
  | arr vs =>
    obtain rfl : vs = [] := by simpa [Json.members] using hm
    exact @Doc.coll D a .arr [] nofun nofun hk ht hs
  | obj ms =>
    obtain rfl : ms = [] := hm
    exact @Doc.coll D a .obj [] nofun nofun hk ht hs
  | _ => exact .scalar id hk ht hs

/-- What a call with this result makes of the value of a node. -/
inductive Revises (D : Dom) : Edit → Bool × Ptr → Addr → (Json → Json) → Prop
  | plain {a : Addr} {setter : PlainSetter} : D.forest.kids a = [] →
      Revises D (.setPlain a setter) (true, none) a fun _ => setter.json
  | copied {a : Addr} {type : TextType} {value : Bytes} : D.forest.kids a = [] →
      Revises D (.copy a type value) (true, none) a fun _ => type.json value
  | taken {a : Addr} {value : Bytes} : D.forest.kids a = [] →
      Revises D (.takeString a value) (true, none) a fun _ => .str value
  | created {a r : Addr} {before : Ptr} : D.type a = .jdArray →
      Revises D (.create (some a) before) (true, some r) a
        (.insertMember (place before (D.forest.kids a)) ([], .null))
  | adopted {a : Addr} {k : Kind} {x : Entry} {before : Ptr} : D.type a = k.type → D.Stands x k →
      D.Doc x.node x.value →
      Revises D (.adopt x.child a before) (true, none) a (.insertMember (place before (D.forest.kids a)) x.pair)
  | inserted {a u : Addr} {L : Json} {before : Ptr} : D.type a = .jdArray → D.Doc u L →
      Revises D (.insertElement a u before) (true, none) a (.insertMember (place before (D.forest.kids a)) ([], L))
  | emancipated {a x : Addr} {k : Kind} : D.type a = k.type → D.forest.up x = some a →
      Revises D (.emancipate x) (true, none) a (.removeMember ((D.forest.kids a).idxOf x))

theorem Doc.insert {x : Entry} {before : Ptr} (hd : D.Doc a K) (ht : D.type a = k.type)
    (hb : ∀ b, before = some b → b ∈ D.forest.kids a)
    (hkids : D'.forest.kids a = insertBefore before x.child (D.forest.kids a)) (htype : D'.type a = D.type a)
    (htext : D'.text a = D.text a) (hold : ∀ y, D.forest.Inside y a → y ≠ a → D.Alike D' y)
    (hx : D'.Doc x.node x.value) (hst : D'.Stands x k) :
    D'.Doc a (K.insertMember (place before (D.forest.kids a)) x.pair) := by
  obtain ⟨xs, rfl, hm⟩ := hd.collection ht
  rw [Json.insertMember, hm.map_members (·.insertIdx _ _), ← List.map_insertIdx]
  refine Members.doc (hm.rebuilt ?_ htype htext fun y hy => ?_)
  · rw [hkids, insertBefore_eq hb, hm.kids, List.map_insertIdx]
  rcases List.eq_or_mem_of_mem_insertIdx hy with rfl | hy
  · exact .inr ⟨hx, hst⟩
  · refine .inl ⟨hy, fun z hz => hold z (hz.tail (hm.up hy)) fun he => ?_⟩
    exact Forest.not_inside_child (hm.up hy) (he ▸ hz)

theorem Doc.remove {i : Nat} (hd : D.Doc a K) (ht : D.type a = k.type)
    (hkids : D'.forest.kids a = (D.forest.kids a).eraseIdx i) (htype : D'.type a = D.type a)
    (htext : D'.text a = D.text a) (hold : ∀ y, D.forest.Inside y a → y ≠ a → D.Alike D' y) :
    D'.Doc a (K.removeMember i) := by
  obtain ⟨xs, rfl, hm⟩ := hd.collection ht
  rw [Json.removeMember, hm.map_members (·.eraseIdx i), List.eraseIdx_map]
  refine Members.doc (hm.rebuilt ?_ htype htext fun y hy => ?_)
  · rw [hkids, hm.kids, List.eraseIdx_map]
  have hy := List.mem_of_mem_eraseIdx hy
  refine .inl ⟨hy, fun z hz => hold z (hz.tail (hm.up hy)) fun he => ?_⟩
  exact Forest.not_inside_child (hm.up hy) (he ▸ hz)

theorem Doc.hang {x : Entry} {before : Ptr} (hc : D.forest.CanHang x.child a before) (hd : D.Doc a K)
    (ht : D.type a = k.type) (hst : D.Stands x k) (hx : D.Doc x.node x.value) :
    (D.relink (D.forest.hang x.child a before hc)).Doc a
      (K.insertMember (place before (D.forest.kids a)) x.pair) := by
  have halike : ∀ y, y ≠ a → D.Alike (D.relink (D.forest.hang x.child a before hc)) y := fun y hy =>
    ⟨Function.update_of_ne hy _ _, rfl, rfl⟩
  have hin : ∀ y, D.forest.Inside y x.child → y ≠ a := fun y hy he => hc.outside (he ▸ hy)
  refine hd.insert ht hc.before ?_ rfl rfl (fun y _ hy => halike y hy) ?_ ?_
  · exact Function.update_self _ _ _
  · exact hx.frame fun y hy => halike y (hin y (hy.trans hst.inside))
  · exact hst.alike fun y hy _ => halike y (hin y hy)

theorem Doc.add (hr : r ∉ D.forest.nodes) : (D.add r).Doc r .null :=
  doc_leaf (@Forest.kids_fresh D.forest _ hr) rfl (Function.update_self _ _ _) (Function.update_self _ _ _)

theorem Edited.revised {f : Json → Json} (h : D.Edited e res D') (hr : D.Revises e res a f)
    (ha : a ∈ D.forest.nodes) (hd : D.Doc a K) : D'.Doc a (f K) := by
  have halike : ∀ y, D.forest.Inside y a → ¬ e.Touches D y → D.Alike D' y := fun y hy ht => h.alike (hy.node ha) ht
  -- a node of its own is a leaf of the document
  have hset : ∀ {type : JdType} {text : Option Bytes} {L : Json}, D' = D.set a type text →
      D.forest.kids a = [] → L.members = [] → type = L.type → text = L.text → D'.Doc a L := by
    rintro type text L rfl hk hm rfl rfl
    exact doc_leaf hk hm set_type_self set_text_self
  cases hr with
  | @plain _ setter hk =>
    cases h
    cases setter <;> exact hset rfl hk rfl rfl rfl
  | @copied _ type _ hk =>
    cases h
    cases type <;> exact hset rfl hk rfl rfl rfl
  | taken hk =>
    cases h
    exact hset rfl hk rfl rfl rfl
  | @created _ r before ht =>
    cases h with
    | child hc hfresh =>
      have hd' : (D.add r).Doc a K := hd.frame fun y hy => add_alike (ne_of_mem_of_not_mem (hy.node ha) hfresh)
      have hta : (D.add r).type a = .jdArray := (Function.update_of_ne (ne_of_mem_of_not_mem ha hfresh) _ _).trans ht
      exact @Doc.hang (D.add r) K a .arr ⟨[], .null, r, r⟩ before hc hd' hta ⟨rfl, rfl⟩ (.add hfresh)
  | @adopted _ k x before ht hst hx =>
    cases h with
    | adopted hc => exact hd.hang hc ht hst hx
  | @inserted _ u L before ht hu =>
    cases h with
    | inserted hc => exact @Doc.hang D K a .arr ⟨[], L, u, u⟩ before hc hd ht ⟨rfl, rfl⟩ hu
  | @emancipated _ x k ht hup =>
    cases h
    refine hd.remove ht ?_ rfl rfl fun y hy hya => halike y hy fun he => ?_
    · exact List.erase_eq_eraseIdx_of_idxOf rfl
    · rw [Edit.Touches, hup] at he
      exact hya (Option.some.inj he).symm

theorem Revises.touches {f : Json → Json} (hr : D.Revises e res a f) (ht : e.Touches D x) : x = a := by
  cases hr with
  | created => exact (Option.some.inj ht).symm
  | emancipated _ hup => exact Option.some.inj (ht.symm.trans hup)
  | _ => exact ht

/-- What a call makes of a document with the node in it, and of one it touches no node of. -/
theorem Edited.document (h : D.Edited e res D') (hr : r ∈ D.forest.nodes) (hd : D.Doc r J) :
    ((∀ y, D.forest.Inside y r → ¬ e.Touches D y) → D'.Doc r J) ∧
      ∀ path a f, D.nodeAt r path = some a → D.Revises e res a f → D'.Doc r (J.alter f path) := by
  refine ⟨fun ht => hd.frame fun y hy => h.alike (hy.node hr) (ht y hy), fun path a f ha hrev => ?_⟩
  obtain ⟨hin, K, -, hK, halter⟩ := hd.alter ha
  refine halter D' f (fun y hy hya => h.alike (hy.node hr) fun ht => ?_) (h.revised hrev (hin.node hr) hK)
  exact hya (hrev.touches ht ▸ .refl)

theorem Edited.nodes {f : Json → Json} (h : D.Edited e res D') (hrev : D.Revises e res a f)
    (hr : r ∈ D.forest.nodes) : r ∈ D'.forest.nodes := by
  cases hrev with
  | created =>
    cases h
    exact List.mem_cons_of_mem _ hr
  | _ =>
    cases h
    exact hr

end Dom

def roomEdited : Json := .arr [.obj [(cs "k", .int (cs "7"))], .null]

theorem Held.denotes (hh : Held base w.heap D) (hr : r ∈ D.forest.nodes) (hd : D.Doc r J) :
    ∃ up prev next, OTree.Linked (links w.heap) up prev next (D.forest.tree r) ∧
      Denotes w.heap (D.forest.tree r) J := by
  obtain ⟨h, hs, hh⟩ := hh
  have hstays : Stays h w.heap := ⟨fun hn => ⟨_, hs.mine hn, rfl, rfl⟩, fun ht => hs.mine ht⟩
  refine ⟨_, _, _, OTree.linked_congr (fun x hx => ?_) (Forest.linked_tree hr),
    hstays.denotes (hd.denotes hr hh.content)⟩
  have hx := Forest.mem_tree.1 hx
  obtain ⟨n, hn, -⟩ := hh.node (hx.node hr)
  rw [← hh.represents x, links_of hn, links_of (hs.mine hn)]

/-- A document in memory is printed, and the text is read as the document. -/
theorem Held.reparsed {indent : Int} (hh : Held base w.heap D) (hr : r ∈ D.forest.nodes) (hd : D.Doc r J)
    (h0 : J.NoNul) (hfit : Fits indent J.levels) : PrintsOut w r indent (J.printed indent) ∧
      (J.Valid → ∀ w2 : World, w2.Ample → w2.input = J.printed indent →
        ∃ t w2', Returns w2 (true, some t.addr) w2' ∧ IsTree w2'.heap t J) := by
  obtain ⟨up, prev, next, hlink, hden⟩ := hh.denotes hr hd
  have hden := hden.cstrings h0
  have haddr : (D.forest.tree r).addr = r := D.forest.addr_tree r
  refine ⟨haddr ▸ printsOut hlink hden hfit, fun hv w2 hw2 hin => ?_⟩
  obtain ⟨t, w2', hret, ha⟩ := document_parsed (hw2.grants _) (hin ▸ printed_document hlink hden hv hfit)
  exact ⟨t, w2', hret, ha.isTree⟩

/-- **What was edited is printed and read back.** -/
theorem edit_reparsed (hh : Held base w.heap D) (hal : e.Allowed w D) :
    ∃ res w' D', e.run w = .ok (res, w') ∧ Held base w'.heap D' ∧
      ∀ r ∈ D.forest.nodes, ∀ J path a f, D.Doc r J → D.nodeAt r path = some a → D.Revises e res a f →
        (J.alter f path).NoNul → ∀ indent, Fits indent (J.alter f path).levels →
          PrintsOut w' r indent ((J.alter f path).printed indent) ∧
          ((J.alter f path).Valid → ∀ w2 : World, w2.Ample → w2.input = (J.alter f path).printed indent →
            ∃ t w2', Returns w2 (true, some t.addr) w2' ∧ IsTree w2'.heap t (J.alter f path)) := by
  obtain ⟨res, w', D', hrun, heff, hheld⟩ := edit_held hh hal
  refine ⟨res, w', D', hrun, hheld, fun r hr J path a f hd ha hrev h0 indent hfit => ?_⟩
  exact hheld.reparsed (heff.nodes hrev hr) ((heff.document hr hd).2 path a f ha hrev) h0 hfit

theorem edit_reparsed_room : ∃ w', (Edit.copy 5 .integer (cs "7")).run roomWorld = .ok ((true, none), w') ∧
    PrintsOut w' 0 2 (roomEdited.printed 2) ∧
    ∀ w2 : World, w2.Ample → w2.input = roomEdited.printed 2 →
      ∃ t w2', Returns w2 (true, some t.addr) w2' ∧ IsTree w2'.heap t roomEdited := by
  obtain ⟨res, w', D', hrun, -, hout⟩ :=
    @edit_reparsed _ _ _ (.copy 5 .integer (cs "7")) room_held (by decide : 5 ∈ roomForest.nodes)
  obtain ⟨w0, hrun0⟩ : ∃ w0, (Edit.copy 5 .integer (cs "7")).run roomWorld = .ok ((true, none), w0) := ⟨_, rfl⟩
  obtain rfl : res = (true, none) := congrArg Prod.fst (Except.ok.inj (hrun.symm.trans hrun0))
  have hnoNul : roomEdited.NoNul := by
    have hint : (Json.int (cs "7")).NoNul := .scalar id fun s hs => by cases hs; decide
    have hobj : (Json.obj [(cs "k", .int (cs "7"))]).NoNul :=
      @Json.NoNul.coll .obj [(cs "k", .int (cs "7"))] (by simpa using hint) (by decide)
    have hnull : Json.null.NoNul := .scalar id nofun
    exact @Json.NoNul.coll .arr [([], .obj [(cs "k", .int (cs "7"))]), ([], .null)]
      (by simpa using ⟨hobj, hnull⟩) nofun
  have hvalid : roomEdited.Valid := by
    have hint : (Json.int (cs "7")).Valid := .int (by decide)
    have hlabel : Body (cs "k") := @Body.plain 107 [] (by decide) (by decide) .nil
    have hobj : (Json.obj [(cs "k", .int (cs "7"))]).Valid :=
      @Json.Valid.coll .obj [(cs "k", .int (cs "7"))] (by simpa using hint) (by simpa using hlabel)
    have hnull : Json.null.Valid := .keyword rfl id
    exact @Json.Valid.coll .arr [([], .obj [(cs "k", .int (cs "7"))]), ([], .null)]
      (by simpa using ⟨hobj, hnull⟩) nofun
  obtain ⟨hprint, hparse⟩ :=
    hout 0 (by decide) _ [0, 0] 5 _ room_doc rfl (.copied rfl) hnoNul 2 (.inr (by decide))
  exact ⟨w', hrun, hprint, hparse hvalid⟩

end JsonDom
