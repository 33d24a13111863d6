import JsonDom.Proof.Frame
import JsonDom.Proof.Outcome

/-!
# The members of an object

What `Object_ReadMember` has read when it returns true. Its loop only remembers that there was a
colon, so several can stand between the label and the value (`one_colon_iff`).
-/

namespace JsonDom

open Lib OTree

variable {w w' : World} {c : Option Parent} {es : Option UInt8} {node p : Ptr}

/-- A byte that the loop behind a label skips. -/
def isSkipped (b : UInt8) : Bool := isspace b || b == ch ':'

/-- The colons in front of the first byte that is neither a blank nor a colon. -/
def colons (r : Bytes) : Nat := (r.takeWhile isSkipped).count (ch ':')

/-- `text` is what `JParser` reads of the value `J` in front of `rest`: a text of `J`, behind a NUL and
blanks where it begins with a NUL, and with the byte that ends an unquoted one. -/
def ValueText (J : Json) (text rest : Bytes) : Prop :=
  ∃ l v z e, Lead l ∧ Renders J v ∧ Stop J e z rest ∧ text = l ++ (v ++ z)

/-- In the run from `w` to `w'` the call of `JParser` behind the label reads the value `t` from `text`. -/
def ValueCalled (w : World) (t : OTree) (text : Bytes) (w' : World) : Prop :=
  ∃ handle w1 b s fuel e w2, jReadString (readStringInit (ch '"')) w = .ok ((true, handle), w1) ∧
    w1.toSrc.valueStart false = some (b, s) ∧ b :: s.input = text ++ w'.input ∧
    jParser fuel none none b (some 0) { w1 with toSrc := s } = .ok ((true, some t.addr, e), w2) ∧
    w2.toSrc = w'.toSrc

/-- The bytes read behind the first quote are a label, blanks, one colon, blanks and a value, and the
new property has this label and this value. -/
def OneColon (w : World) (c : Option Parent) (p : Ptr) (w' : World) : Prop :=
  ∃ label u v text t prop l J, Body label ∧ Blank u ∧ Blank v ∧
    w.input = label ++ ch '"' :: (u ++ ch ':' :: (v ++ (text ++ w'.input))) ∧
    ValueText J text w'.input ∧ ValueCalled w t text w' ∧ p = some prop ∧
    Grown w.heap w'.heap c (.node prop [.node l [], t]) ∧ Content w'.heap prop .jdProperty none ∧
    Content w'.heap l .jdString (some label) ∧ Denotes w'.heap t J

theorem valueStart_split {past : Bool} {input rest : Bytes} {offset n : Nat} {b : UInt8}
    (h : valueStart past input offset = some (b, rest, n)) :
    ∃ cs, input = cs ++ b :: rest ∧ (∀ x ∈ cs, isSkipped x = true) ∧ (past = true ∨ ch ':' ∈ cs) ∧
      isSkipped b = false := by
  fun_induction valueStart past input offset with
  | case1 => cases h
  | case2 past chr bs offset h1 ih =>
    obtain ⟨cs, rfl, hcs, hpast, hb⟩ := ih h
    exact ⟨chr :: cs, rfl, List.forall_mem_cons.2 ⟨by simp [isSkipped, h1], hcs⟩,
      hpast.imp id (List.mem_cons_of_mem _), hb⟩
  | case3 past bs offset h1 ih =>
    obtain ⟨cs, rfl, hcs, -, hb⟩ := ih h
    exact ⟨ch ':' :: cs, rfl, List.forall_mem_cons.2 ⟨by simp [isSkipped], hcs⟩, .inr List.mem_cons_self, hb⟩
  | case4 chr bs offset h1 h2 =>
    cases h
    exact ⟨[], rfl, List.forall_mem_nil _, .inl rfl, by simp [isSkipped, h1, h2]⟩
  | case5 => cases h

/-- What `JParser` takes behind a first byte that is not read over. -/
theorem value_text {J : Json} {b : UInt8} {e : Option UInt8} {used u v z rest : Bytes}
    (hb : isSkipped b = false) (hu : Blank u) (hv : Renders J v) (hz : Stop J e z rest)
    (h : taken b used = u ++ (v ++ z)) : ValueText J (b :: used) rest := by
  by_cases h0 : b = 0
  · subst h0
    rw [taken, if_pos rfl] at h
    exact ⟨0 :: u, v, z, e, .inr ⟨u, hu, rfl⟩, hv, hz, congrArg (0 :: ·) h⟩
  · rw [taken, if_neg h0] at h
    cases u with
    | nil => exact ⟨[], v, z, e, .inl rfl, hv, hz, h⟩
    | cons c u =>
      cases h
      rw [isSkipped, (blank_cons.1 hu).1] at hb
      cases hb

/-- **What `Object_ReadMember` reads** when it returns true: a label, blanks and colons, and a value. -/
theorem member_call {fuel : Nat} {chr : UInt8} {es' : Option UInt8}
    (hg : w.Grants (Reader.propertyRequests fuel chr w.toSrc)) (hc : Stands w.heap c)
    (h : objectReadMember fuel (Parent.ptr c) node chr es w = .ok ((true, p, es'), w')) :
    ∃ label cs text t prop l J, Body label ∧
      w.input = label ++ ch '"' :: (cs ++ (text ++ w'.input)) ∧ (∀ x ∈ cs, isSkipped x = true) ∧
      ch ':' ∈ cs ∧ ValueText J text w'.input ∧ ValueCalled w t text w' ∧
      p = some prop ∧ Grown w.heap w'.heap c (.node prop [.node l [], t]) ∧
      Content w'.heap prop .jdProperty none ∧ Content w'.heap l .jdString (some label) ∧
      Denotes w'.heap t J := by
  cases fuel with
  | zero => cases h
  | succ fuel =>
    unfold objectReadMember at h
    unfold Reader.propertyRequests at hg
    by_cases hq : chr = ch '"'
    · rw [if_neg (not_not.2 hq)] at h hg
      subst hq
      obtain ⟨⟨label, e⟩, s', hl⟩ : ∃ r s', w.toSrc.lex endCheckForQuoted = (r, s') := ⟨_, _, rfl⟩
      obtain ⟨w1, hk, hm1, hres⟩ := readQuoted_run hl hg.left
      have hg1 := hg.right hk.oracle hm1
      unfold Reader.quoted at hg1
      rw [hl] at hg1
      cases e with
      | none =>
        obtain ⟨hrun, -⟩ := hres
        rw [M.bind_ok hrun] at h
        obtain ⟨_, _, -, h⟩ := M.bind_eq_ok h
        cases h
      | some e =>
        obtain ⟨q, hread, hsrc, hlo, htext, -⟩ := hres
        obtain ⟨-, hbody, hin⟩ := lex_quoted (lexSrc_eq hl).1
        rw [M.bind_ok hread] at h
        dsimp only at h hg1
        rw [if_pos rfl] at h
        obtain ⟨⟨result, string⟩, w3, hloop, h⟩ := M.bind_eq_ok h
        obtain ⟨_, w4, hdestroy, h⟩ := M.bind_eq_ok h
        cases h
        rcases memberLoop_cases hloop with
          ⟨-, hr, -⟩ | ⟨n, b, s, ok, value, e', w2, -, hstart, hval, hreq, hrest⟩
        · cases hr
        rcases hrest with ⟨-, hr, -⟩ | ⟨rfl, built, hbuild, hr, hp⟩
        · cases hr
        obtain rfl : p = built := hp hr.symm
        rw [← hsrc, hreq] at hg1
        have hvalue := @Agree.value _ (agree n) { w1 with toSrc := s } none (some 0) none b hg1.left trivial
        cases ho : Reader.value n b s with
        | timeout =>
          rw [ho] at hvalue
          cases hval.symm.trans hvalue
        | fail k s2 =>
          rw [ho] at hvalue
          obtain ⟨_, _, _, hrun2, -⟩ := hvalue
          cases hval.symm.trans hrun2
        | ok a s2 =>
          obtain ⟨J, e2⟩ := a
          obtain ⟨used, u, v, z, hate, hu, hren, hstop, htaken⟩ := (reader_sound n).1 ho
          rw [ho] at hvalue hg1
          obtain ⟨t, w2, hrun2, hm, hden, hsp⟩ := hvalue
          cases hval.symm.trans hrun2
          have hg2 : w2.Grants [.property, .label] := hg1.right hm.oracle hsp.mallocs
          have hq : q < w1.heap.size := Store.lt_size htext
          obtain ⟨w5, prop, l, hrun5, hs5, -, -, hg5, hst5, hpc, hlc⟩ := @buildProperty_run w w2 c t q label
            hg2.head (hg2 1 (by decide)) hc (hm.grown.since hk.size hk.frame)
            ⟨hlo, (hm.grown.frame q hq id).trans htext, fun hx =>
              absurd (hm.grown.fresh q hx) (Nat.not_le_of_lt hq)⟩
          cases hbuild.symm.trans hrun5
          cases hdestroy
          obtain ⟨⟨b', rest, k⟩, hsplit, hs⟩ := Option.map_eq_some_iff.1 hstart
          cases hs
          obtain ⟨cs, hi, hcs, hcolon, hb⟩ := valueStart_split hsplit
          have hrest : w'.input = s2.input := by rw [hs5.src, hm.src]
          have hs : rest = used ++ w'.input := by rw [hrest]; exact hate.input
          have hin : w.input = label ++ ch '"' :: s'.input := hin
          refine ⟨label, cs, b' :: used, t, prop, l, J, hbody, ?_, hcs, hcolon.resolve_left Bool.false_ne_true,
            ?_, ⟨_, w1, b', _, n, _, w2, hread, hstart, ?_, hrun2, hs5.src.symm⟩, rfl, hg5, hpc, hlc,
            hst5.denotes hden⟩
          · rw [hin, ← hsrc, hi, hs]
            rfl
          · rw [hrest]
            exact value_text hb hu hren hstop htaken
          · exact congrArg (b' :: ·) hs
    · rw [if_pos hq] at h
      obtain ⟨_, _, -, h⟩ := M.bind_eq_ok h
      cases h

/-! ## One colon -/

theorem blank_count {u : Bytes} (hu : Blank u) : u.count (ch ':') = 0 :=
  List.count_eq_zero.2 fun hm => absurd (hu _ hm) (by decide)

theorem blank_skipped {u : Bytes} (hu : Blank u) : ∀ x ∈ u, isSkipped x = true := fun x hx => by
  simp [isSkipped, hu x hx]

theorem colons_append {cs y : Bytes} (hcs : ∀ x ∈ cs, isSkipped x = true)
    (hy : ∀ b ∈ y.head?, isSkipped b = false) : colons (cs ++ y) = cs.count (ch ':') := by
  have hnil : y.takeWhile isSkipped = [] := by
    cases y with
    | nil => rfl
    | cons b y => rw [List.takeWhile_cons_of_neg (by simp [hy b rfl])]
  rw [colons, List.takeWhile_append_of_pos hcs, hnil, List.append_nil]

theorem one_colon {cs : Bytes} (hcs : ∀ x ∈ cs, isSkipped x = true) (h1 : cs.count (ch ':') = 1) :
    ∃ u v, cs = u ++ ch ':' :: v ∧ Blank u ∧ Blank v := by
  obtain ⟨u, v, rfl⟩ := List.append_of_mem (List.count_pos_iff.1 (by omega : 0 < cs.count (ch ':')))
  rw [List.count_append, List.count_cons_self] at h1
  have hblank : ∀ r : Bytes, (∀ x ∈ r, isSkipped x = true) → r.count (ch ':') = 0 → Blank r := by
    intro r hr h0 x hx
    have hne : x ≠ ch ':' := fun he => List.count_eq_zero.1 h0 (he ▸ hx)
    simpa [isSkipped, hne] using hr x hx
  refine ⟨u, v, rfl, hblank u (fun x hx => hcs x (by simp [hx])) (by omega),
    hblank v (fun x hx => hcs x (by simp [hx])) (by omega)⟩

theorem ValueText.front {J : Json} {text rest : Bytes} (h : ValueText J text rest) :
    ∀ b ∈ (text ++ rest).head?, isSkipped b = false := by
  obtain ⟨l, v, z, e, hl, hv, -, rfl⟩ := h
  intro b hb
  rcases hl with rfl | ⟨u, -, rfl⟩
  · obtain ⟨c, v', rfl, hf, -, hne⟩ := hv.head
    cases hb
    simp [isSkipped, hf.1, hne]
  · cases hb
    decide

theorem body_unique {s s' r r' : Bytes} (hs : Body s) (hs' : Body s')
    (h : s ++ ch '"' :: r = s' ++ ch '"' :: r') : s = s' ∧ r = r' := by
  have h1 := @lex_body s r hs 0
  rw [h, lex_body hs' 0] at h1
  simp only [Prod.mk.injEq] at h1
  exact ⟨h1.1.1.symm, h1.2.1.symm⟩

/-- Where a member has one colon no other is in front of its value. -/
theorem OneColon.colons {label r : Bytes} (h : OneColon w c p w') (hl : Body label)
    (hi : w.input = label ++ ch '"' :: r) : colons r = 1 := by
  obtain ⟨label', u, v, text, t, prop, l, J, hb, hu, hv, hi', htext, -⟩ := h
  obtain ⟨rfl, rfl⟩ := body_unique hb hl (hi'.symm.trans hi)
  have hcs : ∀ x ∈ u ++ ch ':' :: v, isSkipped x = true := by
    simp only [List.mem_append, List.mem_cons]
    rintro x (hx | rfl | hx)
    · exact blank_skipped hu x hx
    · decide
    · exact blank_skipped hv x hx
  have hcount := colons_append hcs htext.front
  simp only [List.append_assoc, List.cons_append] at hcount
  rw [hcount]
  simp [blank_count hu, blank_count hv]

/-- **A member that `Object_ReadMember` accepts has one colon** exactly if there is one between the
label and the first byte behind it that is neither a blank nor a colon. -/
theorem one_colon_iff {fuel : Nat} {chr : UInt8} {es' : Option UInt8}
    (hh : w.HeedsOf (Reader.propertyRequests fuel chr w.toSrc)) (hc : Stands w.heap c)
    (h : objectReadMember fuel (Parent.ptr c) node chr es w = .ok ((true, p, es'), w')) :
    OneColon w c p w' ↔
      ∀ label r, Body label → w.input = label ++ ch '"' :: r → colons r = 1 := by
  refine ⟨fun hone label r hl hi => hone.colons hl hi, fun hone => ?_⟩
  rcases hh.cases with hg | hf
  · obtain ⟨label, cs, text, t, prop, l, J, hb, hi, hcs, -, htext, hrest⟩ := member_call hg hc h
    have h1 := hone label _ hb hi
    rw [colons_append hcs htext.front] at h1
    obtain ⟨u, v, rfl, hu, hv⟩ := one_colon hcs h1
    exact ⟨label, u, v, text, t, prop, l, J, hb, hu, hv, by simpa using hi, htext, hrest⟩
  · obtain ⟨_, _, _, hrun, -⟩ := @Gives.property _ (gives fuel) w c es node chr hf hc
    cases h.symm.trans hrun

/-- A call of `Object_ReadMember` behind the quote of a label. -/
def memberRun (input : Bytes) : Except Halt ((Bool × Ptr × Option UInt8) × World) :=
  objectReadMember 60 none none (ch '"') (some 0) (World.start input .eof)

/-- An object behind the colon, and another member behind it. -/
theorem one_colon_iff_object : ∃ p es w',
    memberRun (cs "a\" : \x7b\"b\":[1]\x7d, \"c\":2\x7d") = .ok ((true, p, es), w') ∧
    (OneColon (World.start (cs "a\" : \x7b\"b\":[1]\x7d, \"c\":2\x7d") .eof) none p w' ↔ ∀ label r, Body label →
      cs "a\" : \x7b\"b\":[1]\x7d, \"c\":2\x7d" = label ++ ch '"' :: r → colons r = 1) := by
  obtain ⟨⟨p, es⟩, w', h⟩ := @succeeds_run (Ptr × Option UInt8)
    (memberRun (cs "a\" : \x7b\"b\":[1]\x7d, \"c\":2\x7d")) (by decide +kernel)
  exact ⟨p, es, w', h, @one_colon_iff (World.start (cs "a\" : \x7b\"b\":[1]\x7d, \"c\":2\x7d") .eof) w' none _ none p
    _ _ _ ((start_ample _ _).grants _).heeds trivial h⟩

theorem two_colons : ∃ p es w', memberRun (cs "a\"::1\x7d") = .ok ((true, p, es), w') ∧
    ¬ OneColon (World.start (cs "a\"::1\x7d") .eof) none p w' := by
  obtain ⟨⟨p, es⟩, w', h⟩ := @succeeds_run (Ptr × Option UInt8) (memberRun (cs "a\"::1\x7d")) (by decide +kernel)
  refine ⟨p, es, w', h, fun hone => ?_⟩
  have hl : Body (cs "a") := @Body.plain 97 [] (by decide) (by decide) .nil
  have hcount := @OneColon.colons _ _ _ _ _ (cs "::1\x7d") hone hl rfl
  exact absurd hcount (by decide)

end JsonDom
