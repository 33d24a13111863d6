import JsonDom.Doc.RoundTrip
import JsonDom.Proof.Pretty

/-!
# Printing a document in another layout

`jd_Node_serialize` prints the text `J.printed indent` of the document, and nothing else happens
(`serialize_exact`). The layouts at two indents differ in nothing but the whitespace outside of strings
(`layouts_agree`), and a file that was parsed and printed is printed the same way again after another
parse (`reformat`).
-/

namespace JsonDom

open Lib OTree

variable {w w' : World} {t : OTree} {J : Json} {indent : Int} {up prev next : Ptr}

/-- **The serializer prints exactly the text of the document.** -/
theorem serialize_exact (hlink : Linked (links w.heap) up prev next t) (hd : Denotes (cstrings w.heap) t J)
    (hfit : Fits indent J.levels) : ∃ n, ∀ fuel ≥ n, jdNodeSerialize fuel (some t.addr) indent w =
      .ok ((), { w with stdout := w.stdout ++ J.printed indent }) := by
  obtain ⟨n, hn⟩ := serialize_prints hd hlink hfit
  exact ⟨n, fun fuel hfuel => hn fuel hfuel w rfl⟩

theorem serialize_exact_sample : ∃ n, ∀ fuel ≥ n,
    jdNodeSerialize fuel (some 0) (-1) { World.start [] .eof with heap := sampleHeap } =
      .ok ((), { World.start [] .eof with
        heap := sampleHeap, stdout := [] ++ sampleJson.printed (-1) }) :=
  @serialize_exact { World.start [] .eof with heap := sampleHeap } sampleTree sampleJson (-1) none none none
    sample_linked sample_denotes (.inl (by decide))

/-! ## Whitespace -/

/-- The text `u` outside of strings is `v` without its whitespace. -/
def Squeezes (u v : Bytes) : Prop := ∀ t, squeeze (u ++ t) = v ++ squeeze t

namespace Squeezes

variable {u v u' v' : Bytes}

theorem nil : Squeezes [] [] := fun _ => rfl

theorem append (h : Squeezes u v) (h' : Squeezes u' v') : Squeezes (u ++ u') (v ++ v') := fun t => by
  rw [List.append_assoc, h, h', List.append_assoc]

theorem blank (h : Blank u) : Squeezes u [] := by
  induction u with
  | nil => exact nil
  | cons b u ih =>
    obtain ⟨hb, hu⟩ := blank_cons.1 h
    intro t
    rw [List.cons_append, squeeze, squeezeFrom, if_pos hb]
    exact ih hu t

theorem byte {b : UInt8} (hb : isspace b = false) (hq : b ≠ ch '"') (h : Squeezes u v) :
    Squeezes (b :: u) (b :: v) := fun t => by
  rw [List.cons_append, squeeze, squeezeFrom, hb]
  simp only [Bool.false_eq_true, if_false, hq, decide_false, List.cons_append]
  exact congrArg _ (h t)

theorem plain (h : ∀ b ∈ u, Plain b) : Squeezes u u := by
  induction u with
  | nil => exact nil
  | cons b u ih =>
    obtain ⟨hb, hu⟩ := List.forall_mem_cons.1 h
    exact (ih hu).byte hb.not_space hb.2.2.1

theorem body {s : Bytes} (hs : Body s) (t : Bytes) :
    squeezeFrom true false (s ++ ch '"' :: t) = s ++ ch '"' :: squeeze t := by
  induction hs with
  | nil => simp [squeezeFrom, squeeze, show ch '"' ≠ ch '\\' by decide]
  | plain hq he _ ih => simp [squeezeFrom, hq, he, ih]
  | escape _ ih =>
    have hne : ch '\\' ≠ ch '"' := by decide
    simp [squeezeFrom, hne, ih]

theorem string {s : Bytes} (hs : Body s) : Squeezes (ch '"' :: (s ++ [ch '"'])) (ch '"' :: (s ++ [ch '"'])) := by
  intro t
  have hspace : isspace (ch '"') = false := by decide
  have hbody := body hs t
  rw [List.cons_append, squeeze, squeezeFrom, hspace]
  simpa using hbody

theorem commas {α : Type} {xs : List α} {f g : α → Bytes} (h : ∀ x ∈ xs, Squeezes (f x) (g x)) :
    Squeezes ([ch ','].intercalate (xs.map f)) ([ch ','].intercalate (xs.map g)) := by
  induction xs with
  | nil => exact nil
  | cons x xs ih =>
    obtain ⟨hx, hxs⟩ := List.forall_mem_cons.1 h
    cases xs with
    | nil => simpa using hx
    | cons y ys =>
      simpa using hx.append ((ih hxs).byte (b := ch ',') (by decide) (by decide))

end Squeezes

theorem lead_compact : lead (-1) = [] := by decide

theorem subindent_compact : subindent (-1) = -1 := by decide

theorem valueIndent_compact (J : Json) : J.valueIndent (-1) = -1 := by
  simp [Json.valueIndent]

/-- The text of a valid document at any indent is the compact one with whitespace. -/
theorem pretty_squeezes (hv : J.Valid) (indent : Int) : Squeezes (J.pretty indent) (J.pretty (-1)) := by
  have hlead : ∀ indent, Squeezes (lead indent) [] := fun i => .blank (lead_blank i)
  induction hv generalizing indent with
  | @keyword J ht hc =>
    have hword : ∀ s : Bytes, (∀ b ∈ s, Plain b) → Squeezes (lead indent ++ s) (lead (-1) ++ s) := fun s hs => by
      rw [lead_compact]
      exact (hlead indent).append (.plain hs)
    cases J with
    | null =>
      rw [Json.pretty, Json.pretty]
      exact hword _ (@bare_plain .null _ rfl)
    | true =>
      rw [Json.pretty, Json.pretty]
      exact hword _ (@bare_plain .true _ rfl)
    | false =>
      rw [Json.pretty, Json.pretty]
      exact hword _ (@bare_plain .false _ rfl)
    | str | int | float => cases ht
    | arr | obj => exact absurd trivial hc
  | str hs =>
    rw [Json.pretty, Json.pretty, lead_compact]
    exact (hlead indent).append (.string hs)
  | int hs =>
    rw [Json.pretty, Json.pretty, lead_compact]
    exact (hlead indent).append (.plain (bare_plain (J := .int _) ⟨rfl, hs⟩))
  | float hs =>
    rw [Json.pretty, Json.pretty, lead_compact]
    exact (hlead indent).append (.plain (bare_plain (J := .float _) ⟨rfl, hs⟩))
  | @coll k ms _ hlab ih =>
    have hmembers : ∀ m ∈ ms, Squeezes (k.pretty m (subindent indent)) (k.pretty m (-1)) := by
      intro m hm
      cases k with
      | arr => exact ih m hm _
      | obj =>
        obtain ⟨label, K⟩ := m
        have hlabel := Squeezes.string (hlab rfl _ hm)
        have hvalue := (ih _ hm (K.valueIndent (subindent indent))).byte (b := ch ':') (by decide) (by decide)
        have hall := (hlead (subindent indent)).append (hlabel.append hvalue)
        simpa [Kind.pretty, prettyMember, lead_compact, valueIndent_compact] using hall
    have hclose : Squeezes (lead indent ++ [k.closeChar]) [k.closeChar] :=
      (hlead indent).append (.byte (by cases k <;> decide) (by cases k <;> decide) .nil)
    have hinner := ((Squeezes.commas hmembers).append hclose).byte (b := k.openChar)
      (by cases k <;> decide) (by cases k <;> decide)
    have hall := (hlead indent).append hinner
    simpa [pretty_build, Kind.enclose, lead_compact, subindent_compact] using hall

theorem squeeze_printed (hv : J.Valid) (indent : Int) : squeeze (J.printed indent) = J.pretty (-1) := by
  have htext := pretty_squeezes hv indent [ch '\n']
  rw [Json.printed, htext]
  simp [squeeze, squeezeFrom, show isspace (ch '\n') = true by decide]

/-- **Layouts differ in whitespace only.** -/
theorem layouts_agree {i j : Int} (hlink : Linked (links w.heap) up prev next t)
    (hd : Denotes (cstrings w.heap) t J) (hv : J.Valid) (hi : Fits i J.levels) (hj : Fits j J.levels) :
    ∃ d d', squeeze d = squeeze d' ∧ ∃ n, ∀ fuel ≥ n,
      jdNodeSerialize fuel (some t.addr) i w = .ok ((), { w with stdout := w.stdout ++ d }) ∧
      jdNodeSerialize fuel (some t.addr) j w = .ok ((), { w with stdout := w.stdout ++ d' }) := by
  obtain ⟨n, hn⟩ := serialize_prints hd hlink hi
  obtain ⟨m, hm⟩ := serialize_prints hd hlink hj
  refine ⟨J.printed i, J.printed j, (squeeze_printed hv i).trans (squeeze_printed hv j).symm, max n m,
    fun fuel hfuel => ⟨hn fuel (by omega) w rfl, hm fuel (by omega) w rfl⟩⟩

theorem layouts_agree_sample : ∃ d d', squeeze d = squeeze d' ∧ ∃ n, ∀ fuel ≥ n,
    jdNodeSerialize fuel (some 0) 0 { World.start [] .eof with heap := sampleHeap } =
      .ok ((), { World.start [] .eof with heap := sampleHeap, stdout := [] ++ d }) ∧
    jdNodeSerialize fuel (some 0) (-1) { World.start [] .eof with heap := sampleHeap } =
      .ok ((), { World.start [] .eof with heap := sampleHeap, stdout := [] ++ d' }) :=
  @layouts_agree { World.start [] .eof with heap := sampleHeap } sampleTree sampleJson none none none 0 (-1)
    sample_linked sample_denotes sample_valid (.inr (by decide)) (.inl (by decide))

/-! ## Without a NUL -/

/-- No string, label or number of the document has a NUL. -/
inductive Json.NoNul : Json → Prop
  | scalar {J : Json} : ¬ J.IsCollection → (∀ s, J.text = some s → 0 ∉ s) → NoNul J
  | coll {k : Kind} {ms : List (Bytes × Json)} : (∀ m ∈ ms, m.2.NoNul) →
      (k = .obj → ∀ m ∈ ms, 0 ∉ m.1) → NoNul (k.build ms)

theorem Json.NoNul.inv {J : Json} (h : J.NoNul) :
    match J with
    | .arr xs => ∀ x ∈ xs, x.NoNul
    | .obj ms => ∀ m ∈ ms, 0 ∉ m.1 ∧ m.2.NoNul
    | J => ∀ s, J.text = some s → 0 ∉ s := by
  cases h with
  | scalar hJ hs =>
    cases J with
    | arr | obj => exact absurd trivial hJ
    | _ => exact hs
  | @coll k ms hms hl =>
    cases k with
    | arr => simpa [Kind.build] using fun x l hx => hms (l, x) hx
    | obj => exact fun m hm => ⟨hl rfl m hm, hms m hm⟩

theorem Json.NoNul.member {k : Kind} {ms : List (Bytes × Json)} (h : (k.build ms).NoNul) :
    ∀ m ∈ ms, m.2.NoNul ∧ (k = .obj → 0 ∉ m.1) := by
  intro m hm
  cases k with
  | arr => exact ⟨h.inv m.2 (List.mem_map_of_mem hm), nofun⟩
  | obj => exact ⟨(h.inv m hm).2, fun _ => (h.inv m hm).1⟩

theorem Items.inside {k : Kind} {xs : List Piece} {t : Bytes} {b : UInt8} (h : Items k xs t) :
    ∀ x ∈ xs, (b ∈ x.text → b ∈ t) ∧ (k = .obj → b ∈ x.label → b ∈ t) := by
  induction xs generalizing t with
  | nil => exact nofun
  | cons x xs ih =>
    obtain ⟨w, m, g, r, -, hm, -, rfl, hr⟩ := h
    refine List.forall_mem_cons.2 ⟨?_, fun y hy => ?_⟩
    · cases k with
      | arr =>
        obtain ⟨-, l, -, rfl⟩ := hm.1
        simp +contextual
      | obj =>
        obtain ⟨-, c, l, -, -, rfl⟩ := hm.1
        simp +contextual
    · rcases hr with ⟨rfl, -⟩ | ⟨r', rfl, hr⟩
      · cases hy
      · have hin := ih hr y hy
        simp only [List.mem_append, List.mem_cons]
        exact ⟨fun hb => by simp [hin.1 hb], fun hk hb => by simp [hin.2 hk hb]⟩

theorem Renders.noNul {J : Json} {v : Bytes} (h : Renders J v) (h0 : 0 ∉ v) : J.NoNul := by
  induction h with
  | @bare J t hb =>
    refine .scalar (fun hJ => hJ.not_bare hb.isBare) fun s hs => ?_
    cases J with
    | int u | float u =>
      cases hs
      rwa [hb.1] at h0
    | null | true | false => cases hs
    | str | arr | obj => exact hb.elim
  | @quoted s hs =>
    refine .scalar id fun u hu => ?_
    cases hu
    simp only [List.mem_cons, List.mem_append, not_or] at h0
    exact h0.2.1
  | @coll k xs t _ hlay ih =>
    have ht : (0 : UInt8) ∉ t := fun hz => h0 (List.mem_cons_of_mem _ hz)
    have hin : ∀ x ∈ xs, (0 ∈ x.text → 0 ∈ t) ∧ (k = .obj → 0 ∈ x.label → 0 ∈ t) := by
      rcases hlay with ⟨rfl, -⟩ | hitems
      · exact nofun
      · exact hitems.inside
    refine .coll (fun m hm => ?_) fun hk m hm => ?_
    · obtain ⟨x, hx, rfl⟩ := List.mem_map.1 hm
      exact ih x hx fun hz => ht ((hin x hx).1 hz)
    · obtain ⟨x, hx, rfl⟩ := List.mem_map.1 hm
      exact fun hz => ht ((hin x hx).2 hk hz)

/-- Read as C strings, the payloads of such a document are what they were. -/
theorem Denotes.cstrings {h : Store Cell} (hd : Denotes h t J) (h0 : J.NoNul) :
    Denotes (cstrings h) t J := by
  induction hd with
  | @scalar a J hJ hc =>
    refine .scalar hJ (hc.cstrings fun s hs => ?_)
    cases J with
    | arr | obj => exact absurd trivial hJ
    | _ => exact h0.inv s hs
  | @coll a k xs _ hl hc ih =>
    have hmem := h0.member
    refine .coll (fun x hx => ih x hx (hmem _ (List.mem_map_of_mem hx)).1) (fun x hx => ?_)
      (hc.cstrings nofun)
    cases k with
    | arr => exact hl x hx
    | obj =>
      refine ⟨(hl x hx).1.cstrings nofun, (hl x hx).2.cstrings fun s hs => ?_⟩
      cases hs
      exact (hmem _ (List.mem_map_of_mem hx)).2 rfl

/-! ## Again -/

/-- Printing the tree at `root` appends `out` to what was printed, and does nothing else. -/
def PrintsOut (w : World) (root : Addr) (indent : Int) (out : Bytes) : Prop :=
  ∃ n, ∀ fuel ≥ n, jdNodeSerialize fuel (some root) indent w = .ok ((), { w with stdout := w.stdout ++ out })

theorem printsOut (hlink : Linked (links w.heap) up prev next t) (hd : Denotes (cstrings w.heap) t J)
    (hfit : Fits indent J.levels) : PrintsOut w t.addr indent (J.printed indent) := by
  obtain ⟨n, hn⟩ := serialize_prints hd hlink hfit
  exact ⟨n, fun fuel hfuel => hn fuel hfuel w rfl⟩

theorem printed_document (hlink : Linked (links w.heap) up prev next t) (hd : Denotes (cstrings w.heap) t J)
    (hv : J.Valid) (hfit : Fits indent J.levels) : Document J (J.printed indent) := by
  obtain ⟨d, hdoc, n, hn⟩ := serialize_document hlink hd hv hfit
  obtain ⟨m, hm⟩ := printsOut hlink hd hfit
  have hsame := (hn (max n m) (by omega)).symm.trans (hm (max n m) (by omega))
  have hout : w.stdout ++ d = w.stdout ++ J.printed indent := by simpa using hsame
  rwa [← List.append_cancel_left hout]

/-- **A file that was parsed and printed is printed in the same way after another parse**, at every
indent of the first printing and of the second. -/
theorem reformat {root : Addr} (hw : w.Ample) (h0 : 0 ∉ w.input) (hret : Returns w (true, some root) w') :
    ∃ J, Document J w.input ∧ ∀ i, Fits i J.levels → PrintsOut w' root i (J.printed i) ∧
      ∀ w2 : World, w2.Ample → w2.input = J.printed i → ∃ root2 w2', Returns w2 (true, some root2) w2' ∧
        ∀ j, Fits j J.levels → PrintsOut w2' root2 j (J.printed j) := by
  rcases parse_outcome (hw.grants _) hret with ⟨t, J, ha⟩ | ⟨c, offset, lastEnd, hr⟩
  · obtain rfl : root = t.addr := by simpa using ha.result
    obtain ⟨u, v, p, -, hren, -, hd⟩ := ha.document
    have hno : J.NoNul := hren.noNul fun hz => h0 (by simp [hd, hz])
    have hden := ha.denotes.cstrings hno
    refine ⟨J, ha.document, fun i hi => ⟨printsOut ha.grown.hangs hden hi, fun w2 hw2 hin => ?_⟩⟩
    have hdoc := printed_document ha.grown.hangs hden hren.valid hi
    obtain ⟨t2, w2', hret2, ha2⟩ := document_parsed (hw2.grants _) (hin ▸ hdoc)
    exact ⟨t2.addr, w2', hret2, fun j hj => printsOut ha2.grown.hangs (ha2.denotes.cstrings hno) hj⟩
  · cases hr.result

theorem returns_tree {fuel : Nat} (h : endsIn (jdParseFile fuel w) (fun r _ => r.1 && r.2.isSome) = true) :
    ∃ root w', Returns w (true, some root) w' := by
  obtain ⟨⟨ok, p⟩, w', hrun, hq⟩ := endsIn_run h
  simp only [Bool.and_eq_true] at hq
  obtain ⟨rfl, hp⟩ := hq
  obtain ⟨root, rfl⟩ := Option.isSome_iff_exists.1 hp
  exact ⟨root, w', returns_iff.2 ⟨fuel, hrun⟩⟩

theorem reformat_array : ∃ root w', Returns (World.start (cs "[\"a\" ,1]") .eof) (true, some root) w' ∧
    ∃ J, Document J (cs "[\"a\" ,1]") ∧ ∀ i, Fits i J.levels → PrintsOut w' root i (J.printed i) ∧
      ∀ w2 : World, w2.Ample → w2.input = J.printed i → ∃ root2 w2', Returns w2 (true, some root2) w2' ∧
        ∀ j, Fits j J.levels → PrintsOut w2' root2 j (J.printed j) := by
  obtain ⟨root, w', hret⟩ := @returns_tree (World.start (cs "[\"a\" ,1]") .eof) 30 (by decide +kernel)
  exact ⟨root, w', hret, reformat (start_ample _ _) (by decide) hret⟩

end JsonDom
