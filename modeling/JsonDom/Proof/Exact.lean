import JsonDom.Model.Exact
import JsonDom.Proof.Node
import JsonDom.Proof.ReadString

/-!
# Where lengths and addresses matter

What the functions of `JsonDom/Model/Exact.lean` come to, by those that count in `Nat` and are handed
the characters: a lexeme or a copy is the same where an `int` can hold one more than the length
(`readString_exact`, `copyString_own`), and a string in the node's own payload is read behind its
release (`copyString_freed`).
-/

namespace JsonDom

open Lib

variable {w : World} {lo start : Nat} {as : List Addr} {text s : Bytes} {cbag : CharBag} {a : Addr}
  {n : JdNode} {str : CString}

/-! ## `int`s -/

theorem intOf_eq {k : Nat} (h : (k : Int) ≤ intMax) : intOf k = k := by
  unfold intMax at h
  rw [intOf, BitVec.toInt_ofNat', Int.bmod_def]
  omega

/-- An `int` that is not the length it was given is less. -/
theorem intOf_lt {k : Nat} (h : intMax < k) : (intOf k).toNat < k := by
  unfold intMax at h
  rw [intOf, BitVec.toInt_ofNat', Int.bmod_def]
  omega

theorem intOf_range (k : Nat) : -intMax - 1 ≤ intOf k ∧ intOf k ≤ intMax := by
  unfold intMax
  rw [intOf, BitVec.toInt_ofNat', Int.bmod_def]
  omega

theorem addInt_overflow {x y : Int} (h : intMax < x + y) (w : World) : addInt x y w = .error .overflow := by
  unfold addInt
  rw [if_neg fun hr => absurd hr.2 (by omega)]
  rfl

/-! ## The string of a bag -/

theorem Exact.countChars_run {fuel : Nat} {l : CharBagLeaf} {ls : List (Addr × CharBagLeaf)} {acc : Int}
    (hc : Leaves w.heap none l.next ls) (hf : ls.length < fuel)
    (hfits : ∀ l' ∈ l :: ls.map Prod.snd,
      l'.buff.length = cbLeafSize ∧ l'.indexNextChar ≤ cbLeafSize) (hacc : 0 ≤ acc) :
    Exact.countChars cbag fuel acc l w =
      let total : Int := acc + ((l :: ls.map Prod.snd).flatMap CharBagLeaf.chars).length
      if total ≤ intMax then .ok (total, w) else .error .overflow := by
  induction fuel generalizing l ls acc with
  | zero => omega
  | succ fuel ih =>
    obtain ⟨hl, hrest⟩ := List.forall_mem_cons.1 hfits
    have hlen := CharBagLeaf.chars_length hl
    rw [Exact.countChars, List.flatMap_cons, List.length_append, hlen]
    by_cases hover : intMax < acc + l.indexNextChar
    · rw [M.bind_error (addInt_overflow hover w)]
      exact (if_neg (by omega)).symm
    rw [M.bind_ok (addInt_run (by unfold intMax; omega) (by omega) w)]
    cases ls with
    | nil =>
      rw [show l.next = none from hc]
      exact (if_pos (by simp; omega)).symm
    | cons x ls =>
      obtain ⟨hn, hget, hc'⟩ := hc
      rw [hn]
      dsimp only
      rw [M.bind_ok (getLeaf_run hget), ih hc' (by simpa using hf) hrest (by omega)]
      simp only [List.map_cons, Int.natCast_add, Int.add_assoc]

/-- **The string of a bag** is the same where an `int` can hold one more than its length. -/
theorem charBagToString_exact (hb : Bag w.heap cbag as text) : Exact.charBagToString cbag w =
    if (text.length : Int) < intMax then charBagToString cbag w else .error .overflow := by
  have hpass := (passes_run hb).1
  obtain ⟨ls, hls, -, rfl⟩ := hb
  have hcount := @Exact.countChars_run w cbag _ _ _ 0 hls.chain (Nat.lt_succ_of_le hls.length_le) hls.fits
    (Int.le_refl 0)
  generalize hlen : ((cbag.rootLeaf :: ls.map Prod.snd).flatMap CharBagLeaf.chars).length = len at hcount hpass ⊢
  unfold Exact.charBagToString charBagToString
  rw [@M.bind_ok _ _ (fun w => countChars cbag (w.heap.size + 1) cbag.rootLeaf w) _ _ _ _ hpass]
  by_cases hfit : (len : Int) < intMax
  · have hrun : Exact.countChars cbag (w.heap.size + 1) 0 cbag.rootLeaf w = .ok ((len : Int), w) := by
      rw [hcount, Int.zero_add]
      exact if_pos (by omega)
    have hsize : ((len : Int) + 1).toNat = len + 1 := by omega
    have hsame : ∀ s : Bytes, ((s.length : Int) == (len : Int)) = (s.length == len) := fun s => by
      rw [Bool.eq_iff_iff, beq_iff_eq, beq_iff_eq, Int.natCast_inj]
    rw [if_pos hfit,
      @M.bind_ok _ _ (fun w => Exact.countChars cbag (w.heap.size + 1) 0 cbag.rootLeaf w) _ _ _ _ hrun,
      M.bind_ok (addInt_run (by unfold intMax; omega) (by omega) w), hsize]
    refine congrArg (fun k => (malloc _ >>= k) w) (funext fun buff => ?_)
    cases buff with
    | none => rfl
    | some a => simp only [hsame]
  · rw [if_neg hfit]
    by_cases hle : (len : Int) ≤ intMax
    · have hrun : Exact.countChars cbag (w.heap.size + 1) 0 cbag.rootLeaf w = .ok ((len : Int), w) := by
        rw [hcount, Int.zero_add]
        exact if_pos hle
      rw [@M.bind_ok _ _ (fun w => Exact.countChars cbag (w.heap.size + 1) 0 cbag.rootLeaf w) _ _ _ _ hrun]
      exact M.bind_error (addInt_overflow (by omega) w)
    · refine @M.bind_error _ _ (fun w => Exact.countChars cbag (w.heap.size + 1) 0 cbag.rootLeaf w) _ _ _ ?_
      rw [hcount, Int.zero_add]
      exact if_neg hle

/-! ## Lexemes -/

/-- A lexeme is read in the same way, unless the string is too long for an `int`. -/
theorem rest_exact {handle : RSHandle} (hb : Bag w.heap cbag as text) (ho : Only lo w.heap as)
    (hlo : lo ≤ w.heap.size) (hn : Counted start w as text) {r : Lexeme}
    (hr : lex handle.endCheck false w.input w.offset = r) (hg : w.Ample) :
    jReadString.rest Exact.charBagToString handle cbag w =
      if r.1.2 = none ∧ handle.firstChar = ch '"' ∨ ((text ++ r.1.1).length : Int) < intMax then
        jReadString.rest charBagToString handle cbag w
      else .error .overflow := by
  have hends := @readLoop_ends w lo as text cbag start _ handle false hb ho hlo hn (fun _ _ => hg _)
    (Nat.lt_succ_self _)
  rw [hr] at hends
  obtain ⟨cbag1, w1, as1, hb1, ho1, hk1, -, hn1, hrun⟩ := hends
  have hstring := charBagToString_exact hb1
  have hample : w1.oracle w1.mallocs = true := hk1.ample hg _
  obtain ⟨w2, a, hmade, -⟩ := string_made hb1 (Nat.le_trans hlo hk1.size) hample
  unfold jReadString.rest
  rw [M.run_bind, M.run_bind]
  cases he : r.1.2 with
  | none =>
    rw [he] at hrun
    dsimp only at hrun
    rw [hrun, hrun]
    dsimp only
    rw [if_neg Bool.false_ne_true, if_neg Bool.false_ne_true]
    by_cases hq : handle.firstChar = ch '"'
    · rw [if_pos hq, if_pos hq, if_pos (.inl ⟨rfl, hq⟩)]
    rw [if_neg hq, if_neg hq]
    by_cases hfit : ((text ++ r.1.1).length : Int) < intMax
    · rw [if_pos (.inr hfit)]
      rw [if_pos hfit, hmade] at hstring
      rw [M.bind_ok hstring, M.bind_ok hmade]
    · rw [if_neg hfit] at hstring
      rw [if_neg (not_or.2 ⟨fun h => hq h.2, hfit⟩), M.bind_error hstring]
  | some e =>
    rw [he] at hrun
    obtain ⟨k, hrun⟩ := hrun
    dsimp only at hrun
    have hnat : atEnd charBagToString k handle e cbag1 w1 =
        .ok ((true, { handle with endSignal := e, string := some a }, cbag1), w2) := M.bind_ok hmade
    by_cases hfit : ((text ++ r.1.1).length : Int) < intMax
    · rw [if_pos hfit, hmade] at hstring
      have hexact : atEnd Exact.charBagToString k handle e cbag1 w1 =
          .ok ((true, { handle with endSignal := e, string := some a }, cbag1), w2) := M.bind_ok hstring
      rw [if_pos (.inr hfit), hrun, hrun, hnat, hexact]
      rfl
    · rw [if_neg hfit] at hstring
      have hexact : atEnd Exact.charBagToString k handle e cbag1 w1 = .error .overflow := M.bind_error hstring
      rw [if_neg (not_or.2 ⟨fun h => (by cases h.1), hfit⟩), hrun, hexact]

/-- **A lexeme with an `int`** is the same lexeme, unless a string is to be made that an `int` cannot
measure. -/
theorem readString_exact (hw : w.Ample) (chr : UInt8) {r : Lexeme}
    (hr : lex (readStringInit chr).endCheck false w.input w.offset = r) :
    Exact.jReadString (readStringInit chr) w =
      if r.1.2 = none ∧ chr = ch '"' ∨
          (((if chr = ch '"' then [] else [chr]) ++ r.1.1).length : Int) < intMax then
        jReadString (readStringInit chr) w
      else .error .overflow := by
  by_cases hq : chr = ch '"'
  · subst hq
    have hrest := @rest_exact w _ w.mallocs [] [] _ (readStringInit (ch '"')) (bag_init _) (only_empty _)
      (Nat.le_refl _) (counted_init w) _ hr hw
    rw [if_pos rfl]
    exact hrest
  · obtain ⟨cbag1, w1, as1, hrun, hb1, ho1, hk1, hsrc1, hn1⟩ := readFirst_run w hq
    rw [← hsrc1] at hr
    have hrest := rest_exact hb1 ho1 hk1.size hn1 hr (hk1.ample hw)
    have hfirst : (readStringInit chr).firstChar ≠ ch '"' := hq
    rw [Exact.jReadString, jReadString, hrun, hrun, hrest, if_neg hq]
    simp only [hfirst, hq, and_false]

/-! ## Copies -/

namespace CString

theorem chars_congr {h h' : Store Cell} (hsame : ∀ q, str.In (some q) → h'.get? q = h.get? q) :
    str.chars h' = str.chars h := by
  cases str with
  | own => rfl
  | inBlock q offset => simp only [chars, hsame q rfl]

/-- A string that can be read is in no node. -/
theorem not_in_node {h : Store Cell} (hs : str.chars h = some s) (hn : h.get? a = some (.node n)) :
    ¬ str.In (some a) := by
  cases str with
  | own => exact id
  | inBlock q offset =>
    intro hq
    cases hq
    simp only [chars, hn] at hs
    cases hs

theorem lt_size {h : Store Cell} (hs : str.chars h = some s) {q : Addr} (hq : str.In (some q)) : q < h.size := by
  cases str with
  | own => exact hq.elim
  | inBlock q' offset =>
    cases hq
    cases hget : h.get? q with
    | none =>
      simp only [chars, hget] at hs
      cases hs
    | some cell => exact Store.lt_size hget

theorem not_in_null : ¬ str.In none := by
  cases str with
  | own => exact id
  | inBlock => exact fun h => nomatch h

theorem read_run (hs : str.chars w.heap = some s) : str.read w = .ok (s, w) := by
  simp only [read, hs]

theorem read_fail (hs : str.chars w.heap = none) : str.read w = .error .badAccess := by
  simp only [read, hs]

end CString

/-- Behind the release of a node's payload a string can be read unless it was in it. -/
theorem CString.chars_discarded {h h1 : Store Cell} (hn : h.get? a = some (.node n)) (hs : str.chars h = some s)
    (hget : ∀ x, x ≠ a → h1.get? x = if n.payload = some x then none else h.get? x) :
    str.chars h1 = if str.In n.payload then none else some s := by
  have hne : ∀ q, str.In (some q) → q ≠ a := fun q hq hqa => CString.not_in_node hs hn (hqa ▸ hq)
  split_ifs with hin
  · cases str with
    | own => exact hin.elim
    | inBlock q offset =>
      have hq : n.payload = some q := hin
      simp only [CString.chars, hget q (hne q rfl), hq, if_true]
  · rw [← hs]
    refine CString.chars_congr fun q hq => ?_
    have hkept : n.payload ≠ some q := fun hpay => hin (by rw [hpay]; exact hq)
    rw [hget q (hne q hq), if_neg hkept]

/-- **A copy of the node's own payload** is made from freed memory. -/
theorem copyString_freed (hn : w.heap.get? a = some (.node n))
    (hp : ∀ q, n.payload = some q → ∃ block, w.heap.get? q = some (.text block))
    (hs : str.chars w.heap = some s) (hin : str.In n.payload) :
    Exact.jdNodeCopyString (some a) str w = .error .badAccess := by
  obtain ⟨h1, hrun1, -, -, hget1⟩ := discardPayload_release hn hp
  have hgone := CString.chars_discarded hn hs hget1
  rw [if_pos hin] at hgone
  unfold Exact.jdNodeCopyString
  rw [M.bind_ok hrun1]
  exact M.bind_error (@CString.read_fail { w with heap := h1 } str hgone)

/-- **A copy of a string elsewhere**: the `int` has no room for the NUL, or it is negative, or as many
characters are copied as it says. -/
theorem copyString_exact (hn : w.heap.get? a = some (.node n))
    (hp : ∀ q, n.payload = some q → ∃ block, w.heap.get? q = some (.text block))
    (hs : str.chars w.heap = some s) (hout : ¬ str.In n.payload) :
    intOf s.length = intMax ∧ Exact.jdNodeCopyString (some a) str w = .error .overflow ∨
    intOf s.length ≠ intMax ∧
      (w.oracle w.mallocs = true ∧ intOf s.length < 0 ∧
        Exact.jdNodeCopyString (some a) str w = .error .badAccess ∨
      Exact.jdNodeCopyString (some a) str w =
        jdNodeCopyString (some a) (s.take (intOf s.length).toNat) w) := by
  obtain ⟨h1, hrun1, -, -, hget1⟩ := discardPayload_release hn hp
  have hs1 := CString.chars_discarded hn hs hget1
  rw [if_neg hout] at hs1
  obtain ⟨w1, hw1⟩ : ∃ w1, w1 = { w with heap := h1 } := ⟨_, rfl⟩
  rw [← hw1] at hrun1
  have hread : str.read w1 = .ok (s, w1) := CString.read_run (by rw [hw1]; exact hs1)
  have ho : w1.oracle w1.mallocs = w.oracle w.mallocs := by rw [hw1]
  unfold Exact.jdNodeCopyString
  rw [M.bind_ok hrun1, M.bind_ok hread]
  dsimp only
  by_cases hmax : intOf s.length = intMax
  · exact .inl ⟨hmax, M.bind_error (addInt_overflow (by omega) w1)⟩
  refine .inr ⟨hmax, ?_⟩
  have hrange := intOf_range s.length
  rw [M.bind_ok (addInt_run (by omega) (by omega) w1)]
  unfold jdNodeCopyString
  rw [M.bind_ok hrun1]
  cases hgrant : w.oracle w.mallocs with
  | false =>
    rw [hgrant] at ho
    exact .inr (by rw [M.bind_ok (malloc_fail w1 ho _), M.bind_ok (malloc_fail w1 ho _)]; rfl)
  | true =>
    rw [hgrant] at ho
    rw [M.bind_ok (malloc_run w1 ho _), if_pos (by rfl)]
    by_cases hneg : intOf s.length < 0
    · refine .inl ⟨rfl, hneg, ?_⟩
      rw [if_pos hneg]
      rfl
    · right
      rw [if_neg hneg, M.bind_ok (malloc_run w1 ho _), if_pos (by rfl)]

/-- Where an `int` can hold one more than the length all of the string is copied. -/
theorem copyString_fits (hn : w.heap.get? a = some (.node n))
    (hp : ∀ q, n.payload = some q → ∃ block, w.heap.get? q = some (.text block))
    (hs : str.chars w.heap = some s) (hout : ¬ str.In n.payload) (hfit : (s.length : Int) < intMax) :
    Exact.jdNodeCopyString (some a) str w = jdNodeCopyString (some a) s w := by
  have hint := intOf_eq (Int.le_of_lt hfit)
  rcases copyString_exact hn hp hs hout with ⟨hmax, -⟩ | ⟨-, ⟨-, hneg, -⟩ | hcopy⟩
  · omega
  · omega
  · rwa [hint, Int.toNat_natCast, List.take_length] at hcopy

/-- A string of the caller's own is copied as it is handed over. -/
theorem copyString_own (h0 : 0 ∉ s) (hfit : (s.length : Int) < intMax) (node : Ptr) :
    Exact.jdNodeCopyString node (.own s) = jdNodeCopyString node s := by
  have hwhole : s.takeWhile (· ≠ 0) = s :=
    List.takeWhile_eq_self_iff.2 fun b hb => by simpa using ne_of_mem_of_not_mem hb h0
  have hint := intOf_eq (Int.le_of_lt hfit)
  have hnonneg : ¬ (s.length : Int) < 0 := by omega
  funext w
  unfold Exact.jdNodeCopyString jdNodeCopyString
  rw [M.run_bind, M.run_bind]
  cases jdNodeDiscardPayload node w with
  | error e => rfl
  | ok r =>
    have hread : (CString.own s).read r.2 = .ok (s, r.2) :=
      CString.read_run (congrArg some hwhole)
    dsimp only
    rw [M.bind_ok hread, hint, M.bind_ok (addInt_run (by unfold intMax; omega) (by omega) r.2),
      Int.toNat_natCast, List.take_length]
    simp only [if_neg hnonneg]

theorem makeNullProperty_own (h0 : 0 ∉ s) (hfit : (s.length : Int) < intMax) (node : Ptr) :
    Exact.jdNodeMakeNullProperty node (.own s) = jdNodeMakeNullProperty node s := by
  unfold Exact.jdNodeMakeNullProperty jdNodeMakeNullProperty
  simp only [copyString_own h0 hfit]

/-- What is copied, if the call returns, is all of the string only there. -/
theorem copyString_cases (hn : w.heap.get? a = some (.node n))
    (hp : ∀ q, n.payload = some q → ∃ block, w.heap.get? q = some (.text block))
    (hs : str.chars w.heap = some s) :
    (∃ e, Exact.jdNodeCopyString (some a) str w = .error e) ∨
      ∃ t, (t = s → ¬ str.In n.payload ∧ (s.length : Int) < intMax) ∧
        Exact.jdNodeCopyString (some a) str w = jdNodeCopyString (some a) t w := by
  by_cases hin : str.In n.payload
  · exact .inl ⟨_, copyString_freed hn hp hs hin⟩
  rcases copyString_exact hn hp hs hin with ⟨-, herr⟩ | ⟨hne, ⟨-, -, herr⟩ | hcopy⟩
  · exact .inl ⟨_, herr⟩
  · exact .inl ⟨_, herr⟩
  refine .inr ⟨_, fun heq => ⟨hin, ?_⟩, hcopy⟩
  by_contra hlong
  have hmax : (s.length : Int) ≠ intMax := fun h => hne ((intOf_eq (by omega)).trans h)
  have hlt := @intOf_lt s.length (by omega)
  have hlen := congrArg List.length heq
  rw [List.length_take] at hlen
  omega

end JsonDom
