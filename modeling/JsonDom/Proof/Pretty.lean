import JsonDom.Proof.Print

/-!
# What the printers print

The printers print `Json.pretty` of the document that a tree denotes, byte for byte (`prints_pretty`).
Nothing is asked of the document: a string that would not be read back is printed all the same.
-/

namespace JsonDom

open Lib OTree

variable {h : Store Cell} {a : Addr} {n : JdNode}

/-- A node is printed as the text of the value, at every indent with room for it. -/
def PrettyPrints (h : Store Cell) (a : Addr) (J : Json) : Prop :=
  ∀ indent, Fits indent J.levels → Prints h (fun fuel => jNodePrinters fuel J.type (some a) indent) (J.pretty indent)

theorem pretty_scalar {J : Json} (hJ : ¬ J.IsCollection) (hc : Content (cstrings h) a J.type J.text) :
    PrettyPrints h a J := by
  intro indent _
  obtain ⟨n, hn, ht, hp⟩ := content_cstrings hc
  cases J with
  | null => rw [Json.pretty]; exact (prints_keyword hn ht _ indent).succ fun _ => rfl
  | true => rw [Json.pretty]; exact (prints_keyword hn ht _ indent).succ fun _ => rfl
  | false => rw [Json.pretty]; exact (prints_keyword hn ht _ indent).succ fun _ => rfl
  | str s =>
    obtain ⟨q, block, hq, hb, h0, hs⟩ := hp s rfl
    rw [Json.pretty]
    exact (prints_payload hn ht hq hb h0 hs [ch '"'] indent).succ fun _ => rfl
  | int s =>
    obtain ⟨q, block, hq, hb, h0, hs⟩ := hp s rfl
    have hprints := prints_payload hn ht hq hb h0 hs [] indent
    rw [List.append_nil, List.nil_append] at hprints
    rw [Json.pretty]
    exact hprints.succ fun _ => rfl
  | float s =>
    obtain ⟨q, block, hq, hb, h0, hs⟩ := hp s rfl
    have hprints := prints_payload hn ht hq hb h0 hs [] indent
    rw [List.append_nil, List.nil_append] at hprints
    rw [Json.pretty]
    exact hprints.succ fun _ => rfl
  | arr | obj => exact absurd trivial hJ

/-- The value of a member behind its label. -/
theorem pretty_behind {x : Addr} {J : Json} {indent : Int} (hv : PrettyPrints h x J)
    (hfit : Room indent J .obj) :
    Prints h (fun fuel =>
      if indent < 0 then jNodePrinters fuel J.type (some x) indent
      else if JdType.jdArray.toNat ≤ J.type.toNat then do
        let indent ← addInt indent 4
        jNodePrinters fuel J.type (some x) indent
      else jNodePrinters fuel J.type (some x) (-1)) (J.pretty (J.valueIndent indent)) := by
  unfold Json.valueIndent
  rcases hfit with hneg | ⟨hpos, hfit⟩
  · simp only [if_pos hneg]
    exact hv indent (.inl hneg)
  simp only [if_neg (Int.not_lt.2 hpos)]
  by_cases hJ : J.IsCollection
  · have hmax := hfit hJ
    simp only [if_pos hJ, if_pos (type_collection.2 hJ)]
    refine .read (fun w _ => addInt_run ?_ ?_ w) (hv (indent + 4) (.inr (by omega)))
    · unfold intMax
      omega
    · omega
  · simp only [if_neg hJ, if_neg (mt type_collection.1 hJ)]
    exact hv (-1) (.inl (by decide))

theorem pretty_property {x : Item} {up prev next : Ptr} {indent : Int}
    (hlink : Linked (links h) up prev next (x.node .obj)) (hlab : x.Labelled (cstrings h) .obj)
    (hv : PrettyPrints h x.tree.addr x.value)
    (htype : ∃ n, h.get? x.tree.addr = some (.node n) ∧ n.type = x.value.type)
    (hroom : Room indent x.value .obj) :
    Prints h (fun fuel => jNodePrinters fuel .jdProperty (some x.property) indent)
      (prettyMember x.pair indent) := by
  have hout : prettyMember x.pair indent = (lead indent ++ [ch '"'] ++ x.label ++ [ch '"', ch ':']) ++
      x.value.pretty (x.value.valueIndent indent) := by
    rw [Item.pair, prettyMember]
    simp
  rw [hout]
  exact prints_label hlink hlab htype (pretty_behind hv hroom)

/-- The value of a member is linked where the member is. -/
theorem item_linked {ℓ : Addr → Option Links} {k : Kind} {x : Item} {up prev next : Ptr}
    (hl : Linked ℓ up prev next (x.node k)) : ∃ up prev next, Linked ℓ up prev next x.tree := by
  cases k with
  | arr => exact ⟨_, _, _, hl⟩
  | obj => exact ⟨_, _, _, (chain_cons.1 (chain_cons.1 (linked_node.1 hl).2).2).1⟩

/-- A child of a collection is printed as the text of the member. -/
theorem pretty_member {k : Kind} {x : Item} {up prev next : Ptr} {indent : Int}
    (hlink : Linked (links h) up prev next (x.node k)) (hlab : x.Labelled (cstrings h) k)
    (hv : PrettyPrints h x.tree.addr x.value)
    (htype : ∃ n, h.get? x.tree.addr = some (.node n) ∧ n.type = x.value.type)
    (hroom : Room indent x.value k) :
    ∃ n, h.get? (x.node k).addr = some (.node n) ∧
      Prints h (fun fuel => jNodePrinters fuel n.type (some (x.node k).addr) indent) (k.pretty x.pair indent) := by
  cases k with
  | arr =>
    obtain ⟨n, hn, ht⟩ := htype
    exact ⟨n, hn, ht ▸ hv indent hroom⟩
  | obj =>
    obtain ⟨n, hn, ht, -⟩ := content_cstrings hlab.1
    exact ⟨n, hn, ht ▸ pretty_property hlink hlab hv htype hroom⟩

/-- The loop over the children prints their texts with commas between them. -/
theorem pretty_children {α : Type} {xs : List α} {node : α → OTree} {text : α → Bytes} {up prev : Ptr}
    {indent : Int} (hchain : Chain (links h) up prev none (xs.map node))
    (hxs : ∀ x ∈ xs, ∃ n, h.get? (node x).addr = some (.node n) ∧
      Prints h (fun fuel => jNodePrinters fuel n.type (some (node x).addr) indent) (text x)) :
    Prints h (fun fuel => printChildren fuel (firstOf (xs.map node) none) indent)
      ([ch ','].intercalate (xs.map text)) := by
  induction xs generalizing prev with
  | nil => exact (Prints.none h).succ fun _ => rfl
  | cons x xs ih =>
    rw [List.map_cons, chain_cons] at hchain
    obtain ⟨n, hn, hp⟩ := hxs x List.mem_cons_self
    have hrest := ih hchain.2 fun y hy => hxs y (List.mem_cons_of_mem _ hy)
    obtain ⟨l, hl, -, -, hlnext⟩ := hchain.1.root
    have hnext : n.nextSibling = firstOf (xs.map node) none := by
      rw [← hlnext, ← Option.some.inj ((links_of hn).symm.trans hl)]
      rfl
    cases xs with
    | nil =>
      have hout : [ch ','].intercalate ([x].map text) = text x ++ [] := by simp
      rw [hout]
      refine Prints.succ (.read (getNode_reads hn) (hp.seq (.read (getNode_reads hn) ?_))) fun _ => rfl
      rw [hnext]
      exact hrest
    | cons y ys =>
      have hout : [ch ','].intercalate ((x :: y :: ys).map text) =
          text x ++ ([ch ','] ++ [ch ','].intercalate ((y :: ys).map text)) := by simp
      rw [hout]
      refine Prints.succ (.read (getNode_reads hn) (hp.seq (.read (getNode_reads hn) ?_))) fun _ => rfl
      rw [hnext]
      exact (Prints.text h _).seq hrest

/-- **A tree is printed as the text of its document.** -/
theorem prints_pretty {t : OTree} {J : Json} (hd : Denotes (cstrings h) t J) {up prev next : Ptr}
    (hlink : Linked (links h) up prev next t) : PrettyPrints h t.addr J := by
  induction hd generalizing up prev next with
  | scalar hJ hc => exact pretty_scalar hJ hc
  | @coll a k xs hxs hlab hc ih =>
    intro indent hfit
    obtain ⟨n, hn, ht, -⟩ := content_cstrings hc
    obtain ⟨hroot, hkids⟩ := linked_node.1 hlink
    have hfirst : n.firstChild = firstOf (xs.map (·.node k)) none :=
      congrArg Links.first (Option.some.inj ((links_of hn).symm.trans hroot))
    have hmembers : ∀ x ∈ xs, ∃ n, h.get? (x.node k).addr = some (.node n) ∧
        Prints h (fun fuel => jNodePrinters fuel n.type (some (x.node k).addr) (subindent indent))
          (k.pretty x.pair (subindent indent)) := by
      intro x hx
      obtain ⟨prev, next, hx'⟩ := hkids.mem (List.mem_map_of_mem hx)
      obtain ⟨_, _, _, htree⟩ := item_linked hx'
      exact pretty_member hx' (hlab x hx) (ih x hx htree) (denotes_type (hxs x hx))
        (hfit.room (List.mem_map_of_mem hx))
    have hmax : indent < 0 ∨ indent + 4 ≤ intMax :=
      hfit.imp_right fun hmax => by cases k <;> simp only [Kind.build, Json.levels] at hmax <;> omega
    have hcoll := prints_collection hn ht hmax (hfirst ▸ pretty_children hkids hmembers)
    rw [pretty_build, List.map_map]
    cases k with
    | arr => exact (hcoll.succ fun _ => rfl).succ fun _ => rfl
    | obj => exact (hcoll.succ fun _ => rfl).succ fun _ => rfl

/-- `jd_Node_serialize` prints the text of the document and ends the line. -/
theorem serialize_prints {t : OTree} {J : Json} {up prev next : Ptr} {indent : Int}
    (hd : Denotes (cstrings h) t J) (hlink : Linked (links h) up prev next t) (hfit : Fits indent J.levels) :
    Prints h (fun fuel => jdNodeSerialize fuel (some t.addr) indent) (J.printed indent) := by
  obtain ⟨n, hn, ht⟩ := denotes_type hd
  refine .read (getNode_reads hn) ?_
  rw [ht]
  exact (prints_pretty hd hlink indent hfit).seq (.text h [ch '\n'])

end JsonDom
