import JsonDom.Model.Print
import JsonDom.Proof.Memory
import JsonDom.Spec.Grammar
import JsonDom.Spec.Pretty

/-!
# Printing

What the printers of `jd_Node.c` print of a tree is a text of the document that it denotes
(`prints_value`), in the pretty layout, in the compact one, and where the one changes into the other
inside a property. The payloads are read as C strings: `cstrings h` is the memory `h` with every
text cut off behind its first NUL.
-/

namespace JsonDom

open Lib OTree

variable {h : Store Cell} {w : World} {a : Addr} {n : JdNode}

/-- A text block as a C string. -/
def Cell.cstring : Cell → Cell
  | .text block => .text (if block.contains 0 then block.takeWhile (· ≠ 0) ++ [0] else [])
  | c => c

def cstrings (h : Store Cell) : Store Cell := h.map Cell.cstring

/-- What the payload of a node says as a C string. -/
theorem content_cstrings {type : JdType} {text : Option Bytes} (hc : Content (cstrings h) a type text) :
    ∃ n, h.get? a = some (.node n) ∧ n.type = type ∧ ∀ s, text = some s →
      ∃ q block, n.payload = some q ∧ h.get? q = some (.text block) ∧ 0 ∈ block ∧
        block.takeWhile (· ≠ 0) = s := by
  obtain ⟨n, hn, ht, hp⟩ := hc
  rw [cstrings, Store.get?_map] at hn
  obtain ⟨c, hc, hcn⟩ := Option.map_eq_some_iff.1 hn
  cases c with
  | node m =>
    cases hcn
    refine ⟨n, hc, ht, fun s hs => ?_⟩
    subst hs
    obtain ⟨q, hq, htext⟩ := hp
    rw [cstrings, Store.get?_map] at htext
    obtain ⟨c, hc, hct⟩ := Option.map_eq_some_iff.1 htext
    cases c with
    | text block =>
      have hblock := Cell.text.inj hct
      split at hblock
      · next h0 => exact ⟨q, block, hq, hc, List.contains_iff_mem.1 h0, List.append_cancel_right hblock⟩
      · simp at hblock
    | node | leaf | var => cases hct
  | text | leaf | var => cases hcn

theorem payloadOf_cstrings (h : Store Cell) (x : Addr) : payloadOf (cstrings h) x = payloadOf h x := by
  unfold payloadOf
  rw [cstrings, Store.get?_map]
  rcases h.get? x with _ | cell
  · rfl
  · cases cell <;> rfl

/-- A text without a NUL is a C string. -/
theorem Content.cstrings {type : JdType} {text : Option Bytes} (hc : Content h a type text)
    (h0 : ∀ s, text = some s → 0 ∉ s) : Content (cstrings h) a type text := by
  obtain ⟨m, hm, ht, hp⟩ := hc
  refine ⟨m, by rw [JsonDom.cstrings, Store.get?_map, hm]; rfl, ht, ?_⟩
  cases text with
  | none => exact hp
  | some s =>
    obtain ⟨q, hq, htext⟩ := hp
    refine ⟨q, hq, ?_⟩
    have hall : ∀ b ∈ s, (decide (b ≠ 0)) = true := fun b hb =>
      decide_eq_true fun hz => h0 s rfl (hz ▸ hb)
    rw [JsonDom.cstrings, Store.get?_map, htext]
    simp only [Option.map_some, Cell.cstring]
    rw [if_pos (by simp), List.takeWhile_append_of_pos hall]
    simp

/-! ## Levels -/

mutual

/-- How often the indent is increased on the way to the innermost line of a value: once for a
collection, and once more for one in a property. -/
def Json.levels : Json → Nat
  | .arr xs => levelsList xs + 1
  | .obj ms => levelsMembers ms + 1
  | _ => 0

def levelsList : List Json → Nat
  | [] => 0
  | J :: xs => max J.levels (levelsList xs)

def levelsMembers : List (Bytes × Json) → Nat
  | [] => 0
  | m :: ms => max (levelsMember m) (levelsMembers ms)

def levelsMember : Bytes × Json → Nat
  | (_, J) => if J.levels = 0 then 0 else J.levels + 1

end

example : (Json.obj [([], .arr []), ([], .null)]).levels = 3 := by decide

theorem levels_arr {J : Json} {xs : List Json} (h : J ∈ xs) : J.levels + 1 ≤ (Json.arr xs).levels := by
  rw [Json.levels]
  induction xs with
  | nil => cases h
  | cons K xs ih =>
    rw [levelsList]
    rcases List.mem_cons.1 h with rfl | h
    · omega
    · have := ih h
      omega

theorem levels_obj {m : Bytes × Json} {ms : List (Bytes × Json)} (h : m ∈ ms) (hm : m.2.IsCollection) :
    m.2.levels + 2 ≤ (Json.obj ms).levels := by
  have hpos : levelsMember m = m.2.levels + 1 := by
    obtain ⟨l, J⟩ := m
    rw [levelsMember]
    cases J with
    | arr | obj => rw [if_neg (by simp [Json.levels])]
    | _ => exact hm.elim
  rw [Json.levels]
  induction ms with
  | nil => cases h
  | cons x ms ih =>
    rw [levelsMembers]
    rcases List.mem_cons.1 h with rfl | h
    · omega
    · have := ih h
      omega

/-- Printing at this indent does not overflow. -/
def Fits (indent : Int) (levels : Nat) : Prop := indent < 0 ∨ indent + 4 * levels ≤ intMax

/-! ## One node -/

theorem lead_blank (indent : Int) : Blank (lead indent) := by
  unfold lead
  split
  · exact .nil
  · refine blank_cons.2 ⟨by decide, fun b hb => ?_⟩
    rw [(List.mem_replicate.1 hb).2]
    decide

theorem expectType_run {type : JdType} (hn : w.heap.get? a = some (.node n)) (ht : n.type = type) :
    expectType (some a) type w = .ok (n, w) := by
  have hbeq : (n.type == type) = true := beq_iff_eq.2 ht
  unfold expectType
  rw [M.bind_ok (cAssert_run (rfl : (some a : Ptr).isSome = true) w), M.bind_ok (getNode_run w hn),
    M.bind_ok (cAssert_run hbeq w)]
  rfl

theorem printf_run (s : Bytes) (w : World) :
    printf s w = .ok ((), { w with stdout := w.stdout ++ s }) := rfl

/-- With enough fuel `f` appends `out` to what has been printed, and does nothing else. -/
def Prints (h : Store Cell) (f : Nat → M Unit) (out : Bytes) : Prop :=
  ∃ n, ∀ fuel ≥ n, ∀ w : World, w.heap = h →
    f fuel w = .ok ((), { w with stdout := w.stdout ++ out })

namespace Prints

variable {f g : Nat → M Unit} {u v out : Bytes}

theorem text (h : Store Cell) (s : Bytes) : Prints h (fun _ => printf s) s :=
  ⟨0, fun _ _ w _ => printf_run s w⟩

theorem none (h : Store Cell) : Prints h (fun _ => pure ()) [] :=
  ⟨0, fun _ _ w _ => by rw [List.append_nil]; rfl⟩

/-- A step that only reads. -/
theorem read {α : Type} {x : M α} {b : α} {F : α → Nat → M Unit}
    (hx : ∀ w : World, w.heap = h → x w = .ok (b, w)) (hF : Prints h (F b) out) :
    Prints h (fun fuel => x >>= fun c => F c fuel) out := by
  obtain ⟨n, hn⟩ := hF
  refine ⟨n, fun fuel hfuel w hw => ?_⟩
  dsimp only
  rw [M.bind_ok (hx w hw)]
  exact hn fuel hfuel w hw

theorem seq (hf : Prints h f u) (hg : Prints h g v) :
    Prints h (fun fuel => f fuel >>= fun _ => g fuel) (u ++ v) := by
  obtain ⟨n, hn⟩ := hf
  obtain ⟨m, hm⟩ := hg
  refine ⟨max n m, fun fuel hfuel w hw => ?_⟩
  dsimp only
  rw [M.bind_ok (hn fuel (by omega) w hw), hm fuel (by omega) { w with stdout := w.stdout ++ u } hw]
  simp only [List.append_assoc]

theorem succ (hg : Prints h g out) (hf : ∀ fuel, f (fuel + 1) = g fuel) : Prints h f out := by
  obtain ⟨n, hn⟩ := hg
  refine ⟨n + 1, fun fuel hfuel w hw => ?_⟩
  obtain ⟨m, rfl⟩ : ∃ m, fuel = m + 1 := ⟨fuel - 1, by omega⟩
  rw [hf]
  exact hn m (by omega) w hw

end Prints

theorem getNode_reads (hn : h.get? a = some (.node n)) (w : World) (hw : w.heap = h) :
    getNode (some a) w = .ok (n, w) :=
  getNode_run w (hw ▸ hn)

theorem expectType_reads {type : JdType} (hn : h.get? a = some (.node n)) (ht : n.type = type)
    (w : World) (hw : w.heap = h) : expectType (some a) type w = .ok (n, w) :=
  expectType_run (hw ▸ hn) ht

theorem prints_keyword {type : JdType} (hn : h.get? a = some (.node n)) (ht : n.type = type)
    (text : Bytes) (indent : Int) :
    Prints h (fun _ => printKeyword type text (some a) indent) (lead indent ++ text) :=
  .read (expectType_reads hn ht) (.text h _)

theorem prints_payload {type : JdType} {q : Addr} {block s : Bytes} (hn : h.get? a = some (.node n))
    (ht : n.type = type) (hq : n.payload = some q) (hb : h.get? q = some (.text block)) (h0 : 0 ∈ block)
    (hs : block.takeWhile (· ≠ 0) = s) (quote : Bytes) (indent : Int) :
    Prints h (fun _ => printPayload type quote (some a) indent) (lead indent ++ (quote ++ (s ++ quote))) := by
  have htext (w : World) (hw : w.heap = h) : getString n.payload w = .ok (s, w) := by
    rw [hq, getString_run w (hw ▸ hb) h0, hs]
  refine .read (expectType_reads hn ht) (.read htext ?_)
  simpa only [List.append_assoc] using Prints.text h (lead indent ++ quote ++ s ++ quote)

/-- A scalar is printed behind its indent. -/
theorem prints_scalar {J : Json} (hJ : ¬ J.IsCollection) (hv : J.Valid)
    (hc : Content (cstrings h) a J.type J.text) (indent : Int) :
    ∃ v, Renders J v ∧
      Prints h (fun fuel => jNodePrinters fuel J.type (some a) indent) (lead indent ++ v) := by
  obtain ⟨n, hn, ht, hp⟩ := content_cstrings hc
  cases J with
  | null => exact ⟨cs "null", .bare rfl, (prints_keyword hn ht _ indent).succ fun _ => rfl⟩
  | true => exact ⟨cs "true", .bare rfl, (prints_keyword hn ht _ indent).succ fun _ => rfl⟩
  | false => exact ⟨cs "false", .bare rfl, (prints_keyword hn ht _ indent).succ fun _ => rfl⟩
  | str s =>
    obtain ⟨q, block, hq, hb, h0, hs⟩ := hp s rfl
    exact ⟨_, .quoted hv.inv, (prints_payload hn ht hq hb h0 hs [ch '"'] indent).succ fun _ => rfl⟩
  | int s =>
    obtain ⟨q, block, hq, hb, h0, hs⟩ := hp s rfl
    refine ⟨s, .bare ⟨rfl, hv.inv⟩, ?_⟩
    have hprints := prints_payload hn ht hq hb h0 hs [] indent
    rw [List.append_nil, List.nil_append] at hprints
    exact hprints.succ fun _ => rfl
  | float s =>
    obtain ⟨q, block, hq, hb, h0, hs⟩ := hp s rfl
    refine ⟨s, .bare ⟨rfl, hv.inv⟩, ?_⟩
    have hprints := prints_payload hn ht hq hb h0 hs [] indent
    rw [List.append_nil, List.nil_append] at hprints
    exact hprints.succ fun _ => rfl
  | arr | obj => exact absurd trivial hJ

/-! ## Collections -/

/-- A node is printed behind blanks as a text of the value. -/
def ValuePrints (h : Store Cell) (a : Addr) (J : Json) : Prop :=
  ∀ indent, Fits indent J.levels → ∃ u v, Blank u ∧ Renders J v ∧
    Prints h (fun fuel => jNodePrinters fuel J.type (some a) indent) (u ++ v)

theorem colons_colon {u : Bytes} (hu : Blank u) : Colons (ch ':' :: u) :=
  ⟨List.forall_mem_cons.2 ⟨.inr rfl, fun b hb => .inl (hu b hb)⟩, List.mem_cons_self⟩

theorem type_collection {J : Json} : JdType.jdArray.toNat ≤ J.type.toNat ↔ J.IsCollection := by
  cases J <;> simp [Json.type, JdType.toNat, Json.IsCollection]

/-- What is printed of a value behind its label: a collection is indented once more, anything else
stands on the line of the label. -/
theorem prints_behind {x : Addr} {J : Json} {indent : Int} (hv : ValuePrints h x J)
    (hfit : indent < 0 ∨ 0 ≤ indent ∧ (J.IsCollection → indent + 4 * (J.levels + 1) ≤ intMax)) :
    ∃ u v, Blank u ∧ Renders J v ∧ Prints h (fun fuel =>
      if indent < 0 then jNodePrinters fuel J.type (some x) indent
      else if JdType.jdArray.toNat ≤ J.type.toNat then do
        let indent ← addInt indent 4
        jNodePrinters fuel J.type (some x) indent
      else jNodePrinters fuel J.type (some x) (-1)) (u ++ v) := by
  rcases hfit with hneg | ⟨hpos, hfit⟩
  · simp only [if_pos hneg]
    exact hv indent (.inl hneg)
  simp only [if_neg (Int.not_lt.2 hpos)]
  by_cases hJ : J.IsCollection
  · have hmax := hfit hJ
    simp only [if_pos (type_collection.2 hJ)]
    obtain ⟨u, v, hu, hr, hp⟩ := hv (indent + 4) (.inr (by omega))
    exact ⟨u, v, hu, hr, .read (fun w _ => addInt_run (by unfold intMax; omega) (by omega) w) hp⟩
  · simp only [if_neg (mt type_collection.1 hJ)]
    exact hv (-1) (.inl (by decide))

/-- A member of an object is printed behind its indent: the label in quotes, a colon, and the value. -/
theorem prints_label {x : Item} {up prev next : Ptr} {indent : Int} {out : Bytes}
    (hlink : Linked (links h) up prev next (x.node .obj)) (hlab : x.Labelled (cstrings h) .obj)
    (htype : ∃ n, h.get? x.tree.addr = some (.node n) ∧ n.type = x.value.type)
    (hp : Prints h (fun fuel =>
      if indent < 0 then jNodePrinters fuel x.value.type (some x.tree.addr) indent
      else if JdType.jdArray.toNat ≤ x.value.type.toNat then do
        let indent ← addInt indent 4
        jNodePrinters fuel x.value.type (some x.tree.addr) indent
      else jNodePrinters fuel x.value.type (some x.tree.addr) (-1)) out) :
    Prints h (fun fuel => jNodePrinters fuel .jdProperty (some x.property) indent)
      ((lead indent ++ [ch '"'] ++ x.label ++ [ch '"', ch ':']) ++ out) := by
  obtain ⟨hprop, hlabel⟩ := hlab
  obtain ⟨n, hn, ht, -⟩ := content_cstrings hprop
  obtain ⟨l, hl, hlt, hpay⟩ := content_cstrings hlabel
  obtain ⟨q, block, hq, hb, h0, hs⟩ := hpay x.label rfl
  obtain ⟨m, hm, hmt⟩ := htype
  obtain ⟨hroot, hkids⟩ := linked_node.1 hlink
  have hnlinks := Option.some.inj ((links_of hn).symm.trans hroot)
  have hllinks := Option.some.inj ((links_of hl).symm.trans (linked_node.1 (chain_cons.1 hkids).1).1)
  have hfirst : n.firstChild = some x.labelNode := congrArg Links.first hnlinks
  have hlast : n.lastChild = some x.tree.addr := congrArg Links.last hnlinks
  have hnext : l.nextSibling = some x.tree.addr := congrArg Links.next hllinks
  have htext (w : World) (hw : w.heap = h) : getString l.payload w = .ok (x.label, w) := by
    rw [hq, getString_run w (hw ▸ hb) h0, hs]
  refine Prints.succ (Prints.succ ?_ fun _ => rfl) fun _ => rfl
  refine .read (expectType_reads hn ht) (.read (fun w _ => cAssert_run (by rw [hfirst]; rfl) w) ?_)
  refine .read (fun w hw => by rw [hfirst]; exact getNode_reads hl w hw) ?_
  refine .read (fun w _ => cAssert_run (by rw [hlt]; rfl) w) ?_
  refine .read (fun w _ => cAssert_run (by rw [hnext, hlast]; exact beq_self_eq_true _) w) ?_
  refine .read htext ?_
  refine .read (fun w hw => by rw [hlast]; exact getNode_reads hm w hw) ?_
  rw [hlast, hmt]
  exact (Prints.text h _).seq hp

theorem prints_property {x : Item} {up prev next : Ptr} {indent : Int}
    (hlink : Linked (links h) up prev next (x.node .obj)) (hlab : x.Labelled (cstrings h) .obj)
    (hv : ValuePrints h x.tree.addr x.value)
    (htype : ∃ n, h.get? x.tree.addr = some (.node n) ∧ n.type = x.value.type)
    (hfit : indent < 0 ∨ 0 ≤ indent ∧
      (x.value.IsCollection → indent + 4 * (x.value.levels + 1) ≤ intMax)) :
    ∃ u v, Blank u ∧ Renders x.value v ∧ Prints h (fun fuel =>
      jNodePrinters fuel .jdProperty (some x.property) indent)
        (lead indent ++ ch '"' :: (x.label ++ ch '"' :: ch ':' :: (u ++ v))) := by
  obtain ⟨u, v, hu, hr, hp⟩ := prints_behind hv hfit
  refine ⟨u, v, hu, hr, ?_⟩
  simpa only [List.append_assoc, List.cons_append, List.nil_append] using prints_label hlink hlab htype hp

/-- Printing a member at this indent does not overflow. -/
def Room (indent : Int) (J : Json) : Kind → Prop
  | .arr => Fits indent J.levels
  | .obj => indent < 0 ∨ 0 ≤ indent ∧ (J.IsCollection → indent + 4 * (J.levels + 1) ≤ intMax)

theorem Fits.room {indent : Int} {k : Kind} {ms : List (Bytes × Json)}
    (hfit : Fits indent (k.build ms).levels) {m : Bytes × Json} (hm : m ∈ ms) :
    Room (subindent indent) m.2 k := by
  unfold subindent
  split
  · next hneg => cases k <;> exact .inl hneg
  · next hpos =>
    have hmax := hfit.resolve_left hpos
    cases k with
    | arr =>
      have := levels_arr (List.mem_map_of_mem hm : m.2 ∈ ms.map (·.2))
      exact .inr (by rw [Kind.build] at hmax; omega)
    | obj =>
      refine .inr ⟨by omega, fun hJ => ?_⟩
      have := levels_obj hm hJ
      rw [Kind.build] at hmax
      omega

/-- A child of a collection is printed behind blanks as a text of the member. -/
def MemberPrints (h : Store Cell) (k : Kind) (x : Item) (indent : Int) : Prop :=
  ∃ (n : JdNode) (p : Piece) (u m : Bytes), h.get? (x.node k).addr = some (.node n) ∧ p.pair = x.pair ∧
    Renders p.value p.text ∧ p.Member k m ∧ Blank u ∧
    Prints h (fun fuel => jNodePrinters fuel n.type (some (x.node k).addr) indent) (u ++ m)

theorem prints_member {k : Kind} {x : Item} {up prev next : Ptr} {indent : Int}
    (hlink : Linked (links h) up prev next (x.node k)) (hlab : x.Labelled (cstrings h) k)
    (hbody : k = .obj → Body x.label) (hv : ValuePrints h x.tree.addr x.value)
    (htype : ∃ n, h.get? x.tree.addr = some (.node n) ∧ n.type = x.value.type)
    (hroom : Room indent x.value k) :
    MemberPrints h k x indent := by
  cases k with
  | arr =>
    obtain ⟨n, hn, ht⟩ := htype
    obtain ⟨u, v, hu, hr, hp⟩ := hv indent hroom
    exact ⟨n, ⟨x.label, x.value, v⟩, u, v, hn, rfl, hr, ⟨⟨hlab, [], .inl rfl, rfl⟩, hr.str_head⟩, hu, ht ▸ hp⟩
  | obj =>
    obtain ⟨n, hn, ht, -⟩ := content_cstrings hlab.1
    obtain ⟨u, v, hu, hr, hp⟩ := prints_property hlink hlab hv htype hroom
    refine ⟨n, ⟨x.label, x.value, v⟩, lead indent, _, hn, rfl, hr,
      ⟨⟨hbody rfl, ch ':' :: u, [], colons_colon hu, .inl rfl, rfl⟩, fun _ => rfl⟩, lead_blank indent, ?_⟩
    rw [ht]
    exact hp

/-- The members of a collection are printed with commas between them. -/
theorem prints_children {k : Kind} {xs : List Item} {up prev : Ptr} {indent : Int}
    (hchain : Chain (links h) up prev none (xs.map (·.node k)))
    (hxs : ∀ x ∈ xs, MemberPrints h k x indent) :
    ∃ (ps : List Piece) (out : Bytes), ps.map Piece.pair = xs.map Item.pair ∧
      (∀ p ∈ ps, Renders p.value p.text) ∧ (∀ g, Blank g → Layout k ps (out ++ (g ++ [k.closeChar]))) ∧
      Prints h (fun fuel => printChildren fuel (firstOf (xs.map (·.node k)) none) indent) out := by
  induction xs generalizing prev with
  | nil => exact ⟨[], [], rfl, nofun, fun g hg => .inl ⟨rfl, g, hg, rfl⟩, (Prints.none h).succ fun _ => rfl⟩
  | cons x xs ih =>
    rw [List.map_cons, chain_cons] at hchain
    obtain ⟨n, p, u, m, hn, hpair, hr, hm, hu, hp⟩ := hxs x List.mem_cons_self
    obtain ⟨ps, out, hpairs, hrs, hlay, hprints⟩ := ih hchain.2 fun y hy => hxs y (List.mem_cons_of_mem _ hy)
    obtain ⟨l, hl, -, -, hlnext⟩ := hchain.1.root
    have hnext : n.nextSibling = firstOf (xs.map (·.node k)) none := by
      rw [← hlnext, ← Option.some.inj ((links_of hn).symm.trans hl)]
      rfl
    refine ⟨p :: ps, (u ++ m) ++ ((if xs = [] then [] else [ch ',']) ++ out), by simp [hpair, hpairs],
      List.forall_mem_cons.2 ⟨hr, hrs⟩, fun g hg => .inr ?_, Prints.succ ?_ fun _ => rfl⟩
    · rcases hlay g hg with ⟨rfl, w, hw, hout⟩ | hitems
      · obtain rfl : xs = [] := List.map_eq_nil_iff.1 hpairs.symm
        refine ⟨u, m, w, _, hu, hm, .inl hw, ?_, .inl ⟨rfl, rfl⟩⟩
        simp only [if_pos, List.append_assoc, List.nil_append, hout]
      · have hne : xs ≠ [] := by
          rintro rfl
          obtain rfl : ps = [] := List.map_eq_nil_iff.1 hpairs
          exact hitems
        refine ⟨u, m, [], _, hu, hm, .inl .nil, ?_, .inr ⟨_, rfl, hitems⟩⟩
        simp only [if_neg hne, List.append_assoc, List.nil_append, List.cons_append]
    · refine .read (getNode_reads hn) (hp.seq (.read (getNode_reads hn) ?_))
      rw [hnext]
      cases xs with
      | nil => exact hprints
      | cons y xs => exact (Prints.text h _).seq hprints

theorem prints_collection {k : Kind} {indent : Int} {out : Bytes} (hn : h.get? a = some (.node n))
    (ht : n.type = k.type) (hmax : indent < 0 ∨ indent + 4 ≤ intMax)
    (hprints : Prints h (fun fuel => printChildren fuel n.firstChild (subindent indent)) out) :
    Prints h (fun fuel => printCollection fuel k.type k.openChar k.closeChar (some a) indent)
      (lead indent ++ k.openChar :: (out ++ (lead indent ++ [k.closeChar]))) := by
  have hout : lead indent ++ k.openChar :: (out ++ (lead indent ++ [k.closeChar])) =
      (lead indent ++ [k.openChar]) ++ (out ++ (lead indent ++ [k.closeChar])) := by
    rw [List.append_assoc, List.singleton_append]
  rw [hout]
  refine Prints.succ ?_ fun _ => rfl
  refine .read (expectType_reads hn ht) ((Prints.text h _).seq ?_)
  unfold subindent at hprints
  by_cases hneg : indent < 0
  · rw [if_pos hneg] at hprints
    simp only [if_pos hneg]
    exact .read (fun w _ => M.pure_run indent w) (hprints.seq (.text h _))
  · rw [if_neg hneg] at hprints
    simp only [if_neg hneg]
    exact .read (fun w _ => addInt_run (by unfold intMax; omega) (hmax.resolve_left hneg) w)
      (hprints.seq (.text h _))

theorem denotes_type {t : OTree} {J : Json} (hd : Denotes (cstrings h) t J) :
    ∃ n, h.get? t.addr = some (.node n) ∧ n.type = J.type := by
  cases hd with
  | scalar _ hc =>
    obtain ⟨n, hn, ht, -⟩ := content_cstrings hc
    exact ⟨n, hn, ht⟩
  | @coll a k xs _ _ hc =>
    obtain ⟨n, hn, ht, -⟩ := content_cstrings hc
    exact ⟨n, hn, by cases k <;> exact ht⟩

/-- **What is printed of a tree is a text of its document.** -/
theorem prints_value {t : OTree} {J : Json} (hd : Denotes (cstrings h) t J) (hv : J.Valid)
    {up prev next : Ptr} (hlink : Linked (links h) up prev next t) : ValuePrints h t.addr J := by
  induction hd generalizing up prev next with
  | scalar hJ hc =>
    intro indent hfit
    obtain ⟨v, hr, hp⟩ := prints_scalar hJ hv hc indent
    exact ⟨lead indent, v, lead_blank indent, hr, hp⟩
  | @coll a k xs hxs hlab hc ih =>
    intro indent hfit
    obtain ⟨n, hn, ht, -⟩ := content_cstrings hc
    obtain ⟨hroot, hkids⟩ := linked_node.1 hlink
    have hfirst : n.firstChild = firstOf (xs.map (·.node k)) none :=
      congrArg Links.first (Option.some.inj ((links_of hn).symm.trans hroot))
    have hmembers : ∀ x ∈ xs, MemberPrints h k x (subindent indent) := by
      intro x hx
      obtain ⟨prev, next, hx'⟩ := hkids.mem (List.mem_map_of_mem hx)
      obtain ⟨hval, hbody⟩ := hv.member x.pair (List.mem_map_of_mem hx)
      have htree : ∃ up prev next, Linked (links h) up prev next x.tree := by
        cases k with
        | arr => exact ⟨_, _, _, hx'⟩
        | obj => exact ⟨_, _, _, (chain_cons.1 (chain_cons.1 (linked_node.1 hx').2).2).1⟩
      obtain ⟨_, _, _, hlink⟩ := htree
      exact prints_member hx' (hlab x hx) hbody (ih x hx hval hlink) (denotes_type (hxs x hx))
        (hfit.room (List.mem_map_of_mem hx))
    obtain ⟨ps, out, hpairs, hrs, hlay, hprints⟩ := prints_children hkids hmembers
    refine ⟨lead indent, k.openChar :: (out ++ (lead indent ++ [k.closeChar])), lead_blank indent,
      hpairs ▸ .coll hrs (hlay _ (lead_blank indent)), ?_⟩
    have hmax : indent < 0 ∨ indent + 4 ≤ intMax :=
      hfit.imp_right fun hmax => by cases k <;> simp only [Kind.build, Json.levels] at hmax <;> omega
    have hcoll := prints_collection hn ht hmax (hfirst ▸ hprints)
    cases k with
    | arr => exact (hcoll.succ fun _ => rfl).succ fun _ => rfl
    | obj => exact (hcoll.succ fun _ => rfl).succ fun _ => rfl

end JsonDom
