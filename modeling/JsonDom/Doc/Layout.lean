import JsonDom.Proof.Outcome
import JsonDom.Spec.Strict

/-!
# Commas and brackets

What `parse_collection` has read when it returns true, as long as there is no NUL in the file:
members with exactly one comma between two and the closing bracket (`collection_layout`). A comma is
read by the loop itself or as the character that ends an unquoted member, so the loop and the part
behind `read_member` are followed together (`loop_spans`).
-/

namespace JsonDom

open Lib OTree

variable {w w' w0 : World} {k : Kind} {a : Addr}

/-- The member `x` with the text `m` was read in a call of `read_member` made within `input`: all of
`m`, and behind an unquoted scalar the byte that ends it. -/
def Called (k : Kind) (a : Addr) (input : Bytes) (x : Item) (m : Bytes) : Prop :=
  ∃ fuel chr es w1 w2 z, (chr :: w1.input) <:+ input ∧
    readMember fuel k.tools (some a) none chr (some 0) w1 =
      .ok ((true, some (x.node k).addr, es), w2) ∧
    chr :: w1.input = m ++ (z ++ w2.input) ∧
    (z = [] ∨ x.value.IsBare ∧ ∃ b, z = [b] ∧ endCheckForUnquoted b = true)

/-- The text `m` is that of the member `x`, at every level with exactly one comma between two
members. -/
def Written (k : Kind) (x : Item) (m : Bytes) : Prop :=
  ∃ v, Strict x.value v ∧ (Piece.mk x.label x.value v).Spelled k m

/-- A member with its text. -/
abbrev Span := Item × Bytes

/-- The spans are members of the collection at `a`, read within `input`. -/
def Spans (k : Kind) (a : Addr) (input : Bytes) (ys : List Span) : Prop :=
  ∀ y ∈ ys, Called k a input y.1 y.2 ∧ Written k y.1 y.2

theorem Spans.mono {input input' : Bytes} {ys : List Span} (h : Spans k a input ys)
    (hi : input <:+ input') : Spans k a input' ys := fun y hy => by
  obtain ⟨⟨fuel, chr, es, w1, w2, z, hs, hc⟩, hw⟩ := h y hy
  exact ⟨⟨fuel, chr, es, w1, w2, z, hs.trans hi, hc⟩, hw⟩

/-- Behind a member: the closing bracket, or a comma and more members. -/
def Follow (k : Kind) (ms : List Bytes) (t : Bytes) : Prop :=
  ∃ v r, Blank v ∧ t = v ++ r ∧
    (ms = [] ∧ r = [k.closeChar] ∨ ∃ r', r = ch ',' :: r' ∧ ms ≠ [] ∧ Separated k ms r')

/-- What the loop reads: members if one is due or there are none, else what follows a member. -/
def LoopText (k : Kind) (needs : Bool) (xs : List Item) (ms : List Bytes) (t : Bytes) : Prop :=
  if needs then ms ≠ [] ∧ Separated k ms t
  else if xs = [] then Separated k ms t else Follow k ms t

theorem Separated.blank {ms : List Bytes} {b : UInt8} {t : Bytes} (hb : isspace b = true)
    (h : Separated k ms t) : Separated k ms (b :: t) := by
  cases ms with
  | nil =>
    obtain ⟨u, hu, rfl⟩ := h
    exact ⟨b :: u, blank_cons.2 ⟨hb, hu⟩, rfl⟩
  | cons m ms =>
    obtain ⟨u, v, r, hu, hv, rfl, hr⟩ := separated_cons.1 h
    exact separated_cons.2 ⟨b :: u, v, r, blank_cons.2 ⟨hb, hu⟩, hv, rfl, hr⟩

theorem Follow.blank {ms : List Bytes} {b : UInt8} {t : Bytes} (hb : isspace b = true)
    (h : Follow k ms t) : Follow k ms (b :: t) := by
  obtain ⟨v, r, hv, rfl, hr⟩ := h
  exact ⟨b :: v, r, blank_cons.2 ⟨hb, hv⟩, rfl, hr⟩

theorem LoopText.blank {needs : Bool} {xs : List Item} {ms : List Bytes} {b : UInt8} {t : Bytes}
    (hb : isspace b = true) (h : LoopText k needs xs ms t) : LoopText k needs xs ms (b :: t) := by
  unfold LoopText at h ⊢
  split
  · next hn =>
    rw [if_pos hn] at h
    exact ⟨h.1, h.2.blank hb⟩
  next hn =>
  rw [if_neg hn] at h
  split
  · next hx =>
    rw [if_pos hx] at h
    exact h.blank hb
  · next hx =>
    rw [if_neg hx] at h
    exact h.blank hb

theorem Follow.separated {ms : List Bytes} {m t : Bytes} (h : Follow k ms t) :
    Separated k (m :: ms) (m ++ t) := by
  obtain ⟨v, r, hv, rfl, hr⟩ := h
  exact separated_cons.2 ⟨[], v, r, .nil, hv, rfl, hr⟩

/-! ## The loop -/

def LoopSpans (fuel : Nat) : Prop := ∀ {w0 w w' k a xs needs}, w0.Ample → (0 : UInt8) ∉ w.input →
  Building w0 w k a xs →
  parseCollection.loop fuel k.tools (some a) needs w = .ok (.done true, w') →
  ∃ ys used, w.input = used ++ w'.input ∧ LoopText k needs xs (ys.map Prod.snd) used ∧
    Spans k a w.input ys ∧ Building w0 w' k a (xs ++ ys.map Prod.fst)

def MemberSpans (fuel : Nat) : Prop := ∀ {w0 w w' k a xs chr}, w0.Ample →
  (0 : UInt8) ∉ chr :: w.input → isspace chr = false → Building w0 w k a xs →
  parseCollection.member fuel k.tools (some a) chr w = .ok (.done true, w') →
  ∃ y ys t, chr :: w.input = y.2 ++ (t ++ w'.input) ∧ Follow k (ys.map Prod.snd) t ∧
    Spans k a (chr :: w.input) (y :: ys) ∧ Building w0 w' k a (xs ++ (y :: ys).map Prod.fst)

theorem memberSpans_succ {fuel : Nat} (hl : LoopSpans fuel) : MemberSpans (fuel + 1) := by
  intro w0 w w' k a xs chr hw h0 hsp hb h
  unfold parseCollection.member at h
  have hmember := (agree fuel).member k none chr ((hb.ample hw).grants _) hb.stands
  cases ho : Reader.member fuel k chr w.toSrc with
  | timeout =>
    rw [ho] at hmember
    cases (M.bind_error hmember).symm.trans h
  | fail e s =>
    rw [ho] at hmember
    obtain ⟨p, es, w1, hrun, -⟩ := hmember
    have hrun' : readMember fuel k.tools (some a) none chr (some 0) w = .ok ((false, p, es), w1) := hrun
    rw [M.bind_ok hrun'] at h
    cases h
  | ok p s =>
    obtain ⟨pair, e⟩ := p
    obtain ⟨x', used, m, z, hate, hpair, hparts, hren, hst, he⟩ := (reader_sound fuel).2.2.2.2.1 hsp ho
    rw [ho] at hmember
    obtain ⟨t, w1, hrun, hm, ⟨x, hx, ht, hsto⟩, -⟩ := hmember
    subst ht
    have hb1 := hb.push hm hsto
    have hrun' : readMember fuel k.tools (some a) none chr (some 0) w =
      .ok ((true, some (x.node k).addr, some (e.getD 0)), w1) := hrun
    rw [M.bind_ok hrun'] at h
    dsimp only at h
    rw [if_pos rfl, Option.getD_some, isEndChar_eq] at h
    have hw1 : s.input = w1.input := by rw [hm.src]
    have hval : x'.value = x.value := congrArg Prod.snd (hpair.trans hx.symm)
    have hlabel : x'.label = x.label := congrArg Prod.fst (hpair.trans hx.symm)
    rw [hval, hw1] at hst
    have hinput : chr :: w.input = m ++ (z ++ w1.input) := by
      rw [← List.append_assoc, ← he, List.cons_append, ← hw1, ← hate.input]
    have hz0 : (0 : UInt8) ∉ z := fun hz => h0 (by simp [hinput, hz])
    have hm0 : (0 : UInt8) ∉ m := fun hm => h0 (by simp [hinput, hm])
    have hsuf : w1.input <:+ chr :: w.input := ⟨m ++ z, by rw [hinput, List.append_assoc]⟩
    have hwritten : Written k x m := by
      obtain ⟨hsp, ht0⟩ := hparts.spelled hm0
      refine ⟨x'.text, hval ▸ hren.strict ht0, ?_⟩
      rw [← hval, ← hlabel]
      exact hsp
    have finish : ∀ ys t, z ++ w1.input = t ++ w'.input → Follow k (ys.map Prod.snd) t →
        (z = [] ∨ x.value.IsBare ∧ ∃ b, z = [b] ∧ endCheckForUnquoted b = true) →
        Spans k a w1.input ys → Building w0 w' k a (xs ++ [x] ++ ys.map Prod.fst) →
        ∃ y ys t, chr :: w.input = y.2 ++ (t ++ w'.input) ∧ Follow k (ys.map Prod.snd) t ∧
          Spans k a (chr :: w.input) (y :: ys) ∧ Building w0 w' k a (xs ++ (y :: ys).map Prod.fst) := by
      intro ys t ht hf hz hs hb'
      refine ⟨(x, m), ys, t, by rw [← ht]; exact hinput, hf, List.forall_mem_cons.2
        ⟨⟨⟨fuel, chr, _, w, w1, z, List.suffix_refl _, hrun', hinput, hz⟩, hwritten⟩, hs.mono hsuf⟩, ?_⟩
      simpa using hb'
    have hloop : ∀ {needs}, parseCollection.loop fuel k.tools (some a) needs w1 = .ok (.done true, w') →
        ∃ ys used, w1.input = used ++ w'.input ∧ LoopText k needs (xs ++ [x]) (ys.map Prod.snd) used ∧
          Spans k a w1.input ys ∧ Building w0 w' k a (xs ++ [x] ++ ys.map Prod.fst) := fun h =>
      hl hw (fun h => h0 (hsuf.subset h)) hb1 h
    generalize hrest : w1.input = rest at hst
    generalize hJ : x.value = J at hst
    by_cases hcomma : e.getD 0 = ch ','
    · rw [if_pos hcomma] at h
      obtain ⟨ys, used', hu, ⟨hne, hsep⟩, hs, hb2⟩ := hloop h
      cases hst with
      | @char _ b _ hbare hend =>
        obtain rfl : b = ch ',' := hcomma
        exact finish ys (ch ',' :: used') (by rw [hu]; rfl) ⟨[], _, .nil, rfl, .inr ⟨_, rfl, hne, hsep⟩⟩
          (.inr ⟨hJ ▸ hbare, _, rfl, hend⟩) hs hb2
      | eof | quote | bracket => exact absurd hcomma (by decide)
    rw [if_neg hcomma] at h
    by_cases hclose : e.getD 0 = k.closeChar
    · rw [if_pos (beq_iff_eq.2 hclose)] at h
      cases h
      cases hst with
      | @char _ b _ hbare hend =>
        obtain rfl : b = k.closeChar := hclose
        exact finish [] [k.closeChar] rfl ⟨[], _, .nil, rfl, .inl ⟨rfl, rfl⟩⟩
          (.inr ⟨hJ ▸ hbare, _, rfl, hend⟩) (List.forall_mem_nil _) (by simpa using hb1)
      | eof | quote | bracket => cases k <;> exact absurd hclose (by decide)
    rw [if_neg (mt beq_iff_eq.1 hclose)] at h
    split at h
    · next hcont =>
      obtain ⟨ys, used', hu, hf, hs, hb2⟩ := hloop h
      have hf : Follow k (ys.map Prod.snd) used' := by
        rwa [LoopText, if_neg Bool.false_ne_true, if_neg (by simp)] at hf
      cases hst with
      | quote | bracket => exact finish ys used' (by rw [hu]; rfl) hf (.inl rfl) hs hb2
      | eof =>
        -- at the end of the file nothing follows
        have hnil := hu.symm.trans hrest
        obtain ⟨v, r, -, rfl, ⟨-, rfl⟩ | ⟨r', rfl, -⟩⟩ := hf <;> simp at hnil
      | @char _ b _ hbare hend =>
        have hspace : isspace b = true := by
          simp only [Option.getD_some, Bool.or_eq_true, Bool.and_eq_true, decide_eq_true_eq] at hcont
          rcases hcont with (⟨rfl, -⟩ | rfl) | h
          · exact absurd hend (by decide)
          · exact absurd List.mem_cons_self hz0
          · exact h
        exact finish ys (b :: used') (by rw [hu]; rfl) (hf.blank hspace) (.inr ⟨hJ ▸ hbare, _, rfl, hend⟩) hs hb2
    · rw [M.bind_ok (report_run _ w1)] at h
      cases h

theorem loopSpans_succ {fuel : Nat} (hl : LoopSpans fuel) (hm : MemberSpans fuel) :
    LoopSpans (fuel + 1) := by
  intro w0 w w' k a xs needs hw h0 hb h
  obtain ⟨r, s, hr⟩ : ∃ r s, w.toSrc.read = (r, s) := ⟨_, _, rfl⟩
  obtain ⟨w1, hw1⟩ : ∃ w1, w1 = { w with toSrc := s } := ⟨_, rfl⟩
  have hb1 : Building w0 w1 k a xs := hw1 ▸ hb.src s
  cases r with
  | zero | minusOne =>
    unfold parseCollection.loop at h
    rw [M.bind_ok (read_run w), hr] at h
    cases h
  | one chr =>
    have hinput : w.input = chr :: w1.input := by
      rw [hw1]
      exact (read_one hr).1.input
    have hsuf : w1.input <:+ w.input := by
      rw [hinput]
      exact List.suffix_cons _ _
    have h1 : (0 : UInt8) ∉ w1.input := fun h => h0 (hsuf.subset h)
    obtain ⟨n, hn, hfirst⟩ := hb.firstChild
    rw [loop_one hr hn, hfirst, ← hw1] at h
    cases hact : loopAct k (xs.map Item.pair ≠ []) needs chr <;> rw [hact] at h
    case again flag =>
      obtain ⟨ys, used, hu, ht, hs, hb2⟩ := hl hw h1 hb1 h
      refine ⟨ys, chr :: used, by rw [hinput, hu]; rfl, ?_, hs.mono hsuf, hb2⟩
      rcases loopAct_again hact with ⟨hsp, rfl⟩ | ⟨rfl, rfl, hhas, rfl⟩
      · exact ht.blank hsp
      · obtain ⟨hms, hsep⟩ := ht
        rw [LoopText, if_neg Bool.false_ne_true, if_neg (by simpa using hhas)]
        exact ⟨[], _, .nil, rfl, .inr ⟨used, rfl, hms, hsep⟩⟩
    case member =>
      obtain ⟨hsp, hor⟩ := loopAct_member hact
      obtain ⟨y, ys, t, hi, hf, hs, hb2⟩ := hm hw (hinput ▸ h0) hsp hb1 h
      have hsep : Separated k ((y :: ys).map Prod.snd) (y.2 ++ t) := hf.separated
      refine ⟨y :: ys, y.2 ++ t, by rw [hinput, hi, List.append_assoc], ?_, hinput ▸ hs, hb2⟩
      unfold LoopText
      split
      · exact ⟨List.cons_ne_nil _ _, hsep⟩
      · next hn =>
        rw [if_pos (by simpa using hor.resolve_left hn)]
        exact hsep
    case done =>
      cases h
      obtain ⟨rfl, rfl⟩ := loopAct_done hact
      refine ⟨[], [k.closeChar], hinput, ?_, List.forall_mem_nil _, by simpa using hb1⟩
      rw [LoopText, if_neg Bool.false_ne_true]
      split
      · exact ⟨[], .nil, rfl⟩
      · exact ⟨[], _, .nil, rfl, .inl ⟨rfl, rfl⟩⟩
    case fail c =>
      dsimp only [Act.elim] at h
      rw [M.bind_ok (report_run _ w1)] at h
      cases h

theorem loop_spans (fuel : Nat) : LoopSpans fuel ∧ MemberSpans fuel := by
  induction fuel with
  | zero => exact ⟨fun _ _ _ h => (by cases h), fun _ _ _ _ h => (by cases h)⟩
  | succ fuel ih => exact ⟨loopSpans_succ ih.1 ih.2, memberSpans_succ ih.1⟩

/-! ## The collection -/

/-- The bytes read are the members of the new node, each read in one call of `read_member`, with
exactly one comma between two and the closing bracket of this kind behind them. -/
def LaidOut (k : Kind) (w : World) (c : Option Parent) (new : Ptr) (w' : World) : Prop :=
  ∃ a ys used, new = some a ∧ w.input = used ++ w'.input ∧ Separated k (ys.map Prod.snd) used ∧
    Spans k a w.input ys ∧ Grown w.heap w'.heap c (.node a (ys.map fun y => y.1.node k)) ∧
    Content w'.heap a k.type none ∧ ∀ y ∈ ys, Stored w'.heap k y.1

/-- **What `parse_collection` reads** of a file without a NUL when it returns true: a collection with
its commas and its bracket in place. -/
theorem collection_layout {c : Option Parent} {fuel : Nat} {node new : Ptr} (hw : w.Ample)
    (hc : Stands w.heap c) (h0 : (0 : UInt8) ∉ w.input)
    (h : parseCollection fuel (Parent.ptr c) k.tools node w = .ok ((true, new), w')) :
    LaidOut k w c new w' := by
  cases fuel with
  | zero => cases h
  | succ fuel =>
    obtain ⟨w2, hs, hb, -, hrun⟩ := collection_start k node fuel (hw _)
    rw [hrun] at h
    obtain ⟨exit, w3, hloop, h⟩ := M.bind_eq_ok h
    match exit, hloop, h with
    | .earlyExit, _, h =>
      obtain ⟨_, _, -, h⟩ := M.bind_eq_ok h
      cases h
    | .done false, _, h =>
      obtain ⟨_, _, -, h⟩ := M.bind_eq_ok h
      obtain ⟨_, _, -, h⟩ := M.bind_eq_ok h
      cases h
    | .done true, hloop, h =>
      have hi : w2.input = w.input := by rw [hs.src]
      obtain ⟨ys, used, hu, ht, hspans, hb3⟩ := (loop_spans fuel).1 hw (hi ▸ h0) hb hloop
      obtain ⟨w4, hrun4, hm, hst, -⟩ := afterLoop_run hc hb3 node
      cases h.symm.trans hrun4
      rw [hi] at hu hspans
      have hsrc : w'.input = w3.input := by rw [hm.src]; rfl
      refine ⟨w.heap.size, ys, used, rfl, hsrc ▸ hu, ?_, hspans, ?_, hst.content hb3.content,
        fun y hy => hst.stored (hb3.stored y.1 (List.mem_map_of_mem hy))⟩
      · rwa [LoopText, if_neg Bool.false_ne_true, if_pos rfl] at ht
      · have hg := hm.grown
        rwa [List.nil_append, List.map_map] at hg

theorem collection_layout_array : ∃ new w',
    parseCollection 20 none .arrayTools none (World.start (cs "1, [2] ]") .eof) = .ok ((true, new), w') ∧
      LaidOut .arr (World.start (cs "1, [2] ]") .eof) none new w' := by
  obtain ⟨new, w', h⟩ := @succeeds_run Ptr
    (parseCollection 20 none .arrayTools none (World.start (cs "1, [2] ]") .eof)) (by decide +kernel)
  exact ⟨new, w', h, @collection_layout _ _ .arr none _ _ _ (start_ample _ _) trivial (by decide) h⟩

end JsonDom
