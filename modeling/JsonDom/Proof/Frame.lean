import JsonDom.Proof.Fuel
import JsonDom.Proof.Refine

/-!
# What a call leaves, whichever allocations fail

Nothing here assumes that an allocation succeeds. A function that reads a value for the parent `c`
either fails and spares the memory (`Spared`), or returns true without a value and spares it, or hangs
a new tree under `c` (`Left`). `Object_ReadMember` has one more way out: it destroys the property it has
linked to the parent already (`Dangling`), and `jd_Node_destroy` of such a parent does not return
(`destroy_dangling`). One statement for each function, proved together by induction on the fuel
(`leaves`).
-/

namespace JsonDom

open Lib OTree

variable {w w' : World} {c : Option Parent} {fuel : Nat}

/-! ## Lexemes -/

/-- What is known of a string that was read. -/
def NewString (lo : Nat) (h : Store Cell) (p : Ptr) : Prop :=
  ∃ a s, p = some a ∧ lo ≤ a ∧ h.get? a = some (.text (s ++ [0]))

theorem readLoop_left {lo : Nat} {handle handle' : RSHandle} {cbag cbag' : CharBag} {as : List Addr}
    {text : Bytes} {esc found : Bool} (hb : Bag w.heap cbag as text) (ho : Only lo w.heap as)
    (hlo : lo ≤ w.heap.size)
    (h : jReadString.loop charBagToString fuel handle cbag esc w = .ok ((found, handle', cbag'), w')) :
    ∃ as' text', Bag w'.heap cbag' as' text' ∧ (∀ x ∈ as', lo ≤ x) ∧ Kept lo w w' ∧
      if found then ∃ a s, handle'.string = some a ∧ lo ≤ a ∧ a ∉ as' ∧
        w'.heap.get? a = some (.text (s ++ [0]))
      else handle' = handle := by
  induction fuel generalizing w cbag as text esc with
  | zero => cases h
  | succ fuel ih =>
    unfold jReadString.loop at h
    rw [M.bind_ok (read_run w)] at h
    obtain ⟨r, s, hr⟩ : ∃ r s, w.toSrc.read = (r, s) := ⟨_, _, rfl⟩
    rw [hr] at h
    dsimp only at h
    obtain ⟨w1, hw1⟩ : ∃ w1, w1 = { w with toSrc := s } := ⟨_, rfl⟩
    have hk1 : Kept lo w w1 := by
      rw [hw1]
      exact .src lo w s
    have hb1 : Bag w1.heap cbag as text := by rw [hw1]; exact hb
    have ho1 : Only lo w1.heap as := by rw [hw1]; exact ho
    rw [← hw1] at h
    -- the rest of the loop, with this bag
    have again : ∀ {w2 : World} {cbag2 : CharBag} {as2 : List Addr} {text2 : Bytes} {esc2 : Bool},
        Bag w2.heap cbag2 as2 text2 → Only lo w2.heap as2 → Kept lo w w2 →
        jReadString.loop charBagToString fuel handle cbag2 esc2 w2 = .ok ((found, handle', cbag'), w') →
        ∃ as' text', Bag w'.heap cbag' as' text' ∧ (∀ x ∈ as', lo ≤ x) ∧ Kept lo w w' ∧
          if found then ∃ a s, handle'.string = some a ∧ lo ≤ a ∧ a ∉ as' ∧
            w'.heap.get? a = some (.text (s ++ [0]))
          else handle' = handle := by
      intro w2 cbag2 as2 text2 esc2 hb2 ho2 hk2 h
      obtain ⟨as', text', hb', has', hk', hres⟩ := ih hb2 ho2 (Nat.le_trans hlo hk2.size) h
      exact ⟨as', text', hb', has', hk2.trans hk' (Nat.le_refl lo), hres⟩
    cases r with
    | zero | minusOne =>
      cases h
      exact ⟨as, text, hb1, ho1.1, hk1, rfl⟩
    | one chr =>
      dsimp only at h
      cases esc with
      | true =>
        rw [if_pos rfl] at h
        obtain ⟨ok2, cbag2, w2, as2, hrun2, hb2, ho2, hk2, -⟩ :=
          addCharToBag_run hb1 ho1 (Nat.le_trans hlo hk1.size) (ch '\\')
        have hk2 := hk1.trans hk2 (Nat.le_refl lo)
        obtain ⟨ok3, cbag3, w3, as3, hrun3, hb3, ho3, hk3, -⟩ :=
          addCharToBag_run hb2 ho2 (Nat.le_trans hlo hk2.size) chr
        rw [M.bind_ok hrun2] at h
        dsimp only at h
        rw [M.bind_ok hrun3] at h
        exact again hb3 ho3 (hk2.trans hk3 (Nat.le_refl lo)) h
      | false =>
        rw [if_neg Bool.false_ne_true] at h
        by_cases hs : chr = ch '\\'
        · rw [if_pos hs] at h
          exact again hb1 ho1 hk1 h
        rw [if_neg hs] at h
        by_cases he : handle.endCheck chr = true
        · rw [if_pos he] at h
          cases hgrant : w1.oracle w1.mallocs with
          | true =>
            obtain ⟨w2, a, hrun2, hb2, hk2, -, -, hloa, hnew, htext, -⟩ :=
              string_made hb1 (Nat.le_trans hlo hk1.size) hgrant
            rw [M.bind_ok hrun2] at h
            cases h
            exact ⟨as, text, hb2, ho1.1, hk1.trans hk2 (Nat.le_refl lo), a, text, rfl, hloa, hnew, htext⟩
          | false =>
            -- the end character is dropped and reading goes on
            rw [M.bind_ok (charBagToString_fail hb1 hgrant)] at h
            exact @again { w1 with mallocs := w1.mallocs + 1 } cbag as text false hb1 ho1
              ⟨hk1.size, hk1.frame, hk1.oracle, hk1.stdout⟩ h
        · rw [if_neg he] at h
          obtain ⟨ok2, cbag2, w2, as2, hrun2, hb2, ho2, hk2, -⟩ :=
            addCharToBag_run hb1 ho1 (Nat.le_trans hlo hk1.size) chr
          rw [M.bind_ok hrun2] at h
          exact again hb2 ho2 (hk1.trans hk2 (Nat.le_refl lo)) h

/-- Emptying the bag touches nothing that was there before. -/
theorem cleanup_left {lo : Nat} {cbag cbag' : CharBag} {as : List Addr} {text : Bytes}
    (hb : Bag w.heap cbag as text) (has : ∀ x ∈ as, lo ≤ x)
    (h : charBagCleanup cbag w = .ok (cbag', w')) :
    Kept lo w w' ∧ ∀ x, x ∉ as → w'.heap.get? x = w.heap.get? x := by
  obtain ⟨cbag2, w2, hrun, hk, -, -, hget⟩ := bag_emptied hb has
  cases h.symm.trans hrun
  exact ⟨hk, fun x hx => (hget x).trans (if_neg hx)⟩

theorem rest_left {lo : Nat} {handle handle' : RSHandle} {cbag : CharBag} {as : List Addr} {text : Bytes}
    {ok : Bool} (hb : Bag w.heap cbag as text) (ho : Only lo w.heap as) (hlo : lo ≤ w.heap.size)
    (hrest : jReadString.rest charBagToString handle cbag w = .ok ((ok, handle'), w')) :
    Kept lo w w' ∧ if ok then NewString lo w'.heap handle'.string else handle'.string = handle.string := by
  unfold jReadString.rest at hrest
  obtain ⟨⟨found, handle1, cbag1⟩, w1, hloop, h⟩ := M.bind_eq_ok hrest
  obtain ⟨as1, text1, hb1, has1, hk1, hres⟩ := readLoop_left hb ho hlo hloop
  dsimp only at h
  cases found with
  | true =>
    rw [if_pos rfl] at h hres
    obtain ⟨a, s, hstr, hloa, ha, htext⟩ := hres
    obtain ⟨cbag2, w2, hclean, h⟩ := M.bind_eq_ok h
    obtain ⟨hk2, hother⟩ := cleanup_left hb1 has1 hclean
    cases h
    exact ⟨hk1.trans hk2 (Nat.le_refl lo), a, s, hstr, hloa, (hother a ha).trans htext⟩
  | false =>
    rw [if_neg Bool.false_ne_true] at h hres
    obtain rfl := hres
    by_cases hq : handle1.firstChar = ch '"'
    · rw [if_pos hq, M.bind_ok (report_run _ w1)] at h
      obtain ⟨cbag2, w2, hclean, h⟩ := M.bind_eq_ok h
      obtain ⟨hk2, -⟩ := cleanup_left (w := { w1 with toSrc := w1.toSrc.report "unexpected EOF" }) hb1
        has1 hclean
      cases h
      exact ⟨(hk1.trans (.src lo w1 _) (Nat.le_refl lo)).trans hk2 (Nat.le_refl lo), rfl⟩
    · rw [if_neg hq] at h
      cases hgrant : w1.oracle w1.mallocs with
      | true =>
        obtain ⟨w2, a, hrun2, hb2, hk2, -, -, hloa, hnew, htext, -⟩ :=
          string_made hb1 (Nat.le_trans hlo hk1.size) hgrant
        rw [M.bind_ok hrun2] at h
        obtain ⟨cbag3, w3, hclean, h⟩ := M.bind_eq_ok h
        obtain ⟨hk3, hother⟩ := cleanup_left hb2 has1 hclean
        cases h
        exact ⟨(hk1.trans hk2 (Nat.le_refl lo)).trans hk3 (Nat.le_refl lo), a, text1, rfl, hloa,
          (hother a hnew).trans htext⟩
      | false =>
        rw [M.bind_ok (charBagToString_fail hb1 hgrant)] at h
        obtain ⟨cbag2, w2, hclean, h⟩ := M.bind_eq_ok h
        cases h
        obtain ⟨hk2, -⟩ := cleanup_left (w := { w1 with mallocs := w1.mallocs + 1 }) hb1 has1 hclean
        exact ⟨hk1.trans ⟨hk2.size, hk2.frame, hk2.oracle, hk2.stdout⟩ (Nat.le_refl lo), rfl⟩

/-- **A lexeme**: nothing old changes, and its string is new. -/
theorem readString_left {chr : UInt8} {ok : Bool} {handle : RSHandle}
    (h : jReadString (readStringInit chr) w = .ok ((ok, handle), w')) :
    Kept w.heap.size w w' ∧ if ok then NewString w.heap.size w'.heap handle.string
      else handle.string = none := by
  unfold jReadString jReadString.whole at h
  by_cases hc : (readStringInit chr).firstChar ≠ ch '"'
  · rw [if_pos hc] at h
    obtain ⟨ok1, cbag1, w1, as1, hrun1, hb1, ho1, hk1, -⟩ :=
      addCharToBag_run (bag_init w.heap) (only_empty _) (Nat.le_refl _) (readStringInit chr).firstChar
    rw [M.bind_ok hrun1] at h
    obtain ⟨hk, hres⟩ := rest_left hb1 ho1 hk1.size h
    exact ⟨hk1.trans hk (Nat.le_refl _), hres⟩
  · rw [if_neg hc, M.bind_ok (M.pure_run _ w)] at h
    exact rest_left (bag_init w.heap) (only_empty _) (Nat.le_refl _) h

/-! ## Scalars -/

/-- Everything that was there is unchanged. -/
structure Spared (h h' : Store Cell) : Prop where
  size : h.size ≤ h'.size
  frame : ∀ x < h.size, h'.get? x = h.get? x

theorem Kept.spared (hk : Kept w.heap.size w w') : Spared w.heap w'.heap := ⟨hk.size, hk.frame⟩

theorem Spared.refl (h : Store Cell) : Spared h h := ⟨Nat.le_refl _, fun _ _ => rfl⟩

theorem Spared.trans {h h' h'' : Store Cell} (h1 : Spared h h') (h2 : Spared h' h'') : Spared h h'' :=
  ⟨Nat.le_trans h1.size h2.size, fun x hx =>
    (h2.frame x (Nat.lt_of_lt_of_le hx h1.size)).trans (h1.frame x hx)⟩

/-- What is released is new. -/
theorem Spared.release {h h' : Store Cell} (hs : Spared h h') {q : Addr} (hq : h.size ≤ q) :
    Spared h (h'.release q) := by
  refine ⟨by rw [Store.size_release]; exact hs.size, fun x hx => ?_⟩
  rw [Store.get?_release_ne (Nat.ne_of_lt (Nat.lt_of_lt_of_le hx hq)), hs.frame x hx]

/-- What a function that reads a value for `c` leaves, and what it returns. -/
inductive Left (h h' : Store Cell) (c : Option Parent) : Bool → Ptr → Prop
  | failed {p : Ptr} : Spared h h' → Left h h' c false p
  | lost : Spared h h' → Left h h' c true none
  | made {t : OTree} : Grown h h' c t → Left h h' c true (some t.addr)

theorem free_left {p : Ptr} (h : free p w = .ok ((), w')) :
    w' = w ∧ p = none ∨ ∃ a, p = some a ∧ w' = { w with heap := w.heap.release a } := by
  unfold free at h
  cases p with
  | none =>
    cases h
    exact .inl ⟨rfl, rfl⟩
  | some a =>
    dsimp only at h
    split at h
    · cases h
      exact .inr ⟨a, rfl, rfl⟩
    · cases h

theorem setNumber_left {lo : Nat} {r : Addr} {value : Bytes} {type : JdType} {b : Bool}
    (hn : w.heap.get? r = some (.node newNode)) (hlo : lo ≤ w.heap.size)
    (h : jdNodeSetNumber (some r) value type w = .ok (b, w')) :
    ∃ type text, Leaf lo w.heap w'.heap r type text := by
  cases ho : w.oracle w.mallocs with
  | true =>
    obtain ⟨w1, hrun, -, hl, -⟩ := leaf_number hn ho hlo value type
    cases h.symm.trans hrun
    exact ⟨_, _, hl⟩
  | false =>
    -- the node stays a null
    cases h.symm.trans (setNumber_fail hn rfl ho value type)
    exact ⟨.jdNull, none, Nat.le_refl _, fun _ _ _ => rfl, none, hn, rfl⟩

theorem setUnquoted_left {lo : Nat} {r q : Addr} {s : Bytes} {b : Bool}
    (hn : w.heap.get? r = some (.node newNode)) (hq : w.heap.get? q = some (.text (s ++ [0])))
    (hlo : lo ≤ w.heap.size) (h : setUnquoted (some r) (some q) w = .ok (b, w')) :
    ∃ type text, Leaf lo w.heap w'.heap r type text := by
  have plain : ∀ {type : JdType} {k : Bool → M Bool}, (∀ x v, k x v = .ok (true, v)) →
      (jdNodeSetPlain (some r) type >>= k) w = .ok (b, w') →
        ∃ type text, Leaf lo w.heap w'.heap r type text := by
    intro type k hk hrun
    obtain ⟨w1, hset, -, hl, -⟩ := @leaf_plain w lo r hn type
    rw [M.bind_ok hset, hk] at hrun
    cases hrun
    exact ⟨_, _, hl⟩
  have number : ∀ {type : JdType} {str : Bytes} {k : Bool → M Bool}, (∀ x v, k x v = .ok (true, v)) →
      (jdNodeSetNumber (some r) str type >>= k) w = .ok (b, w') →
        ∃ type text, Leaf lo w.heap w'.heap r type text := by
    intro type str k hk hrun
    obtain ⟨x, w1, hset, hrun⟩ := M.bind_eq_ok hrun
    rw [hk] at hrun
    cases hrun
    exact setNumber_left hn hlo hset
  have rejected : ∀ {m : String}, (do
      reportParseError m
      pure false : M Bool) w = .ok (b, w') → ∃ type text, Leaf lo w.heap w'.heap r type text := by
    intro m hrun
    rw [M.bind_ok (report_run _ w)] at hrun
    cases hrun
    exact ⟨.jdNull, none, Nat.le_refl _, fun _ _ _ => rfl, none, hn, rfl⟩
  unfold setUnquoted at h
  rw [M.bind_ok (getString_run w hq (by simp))] at h
  split at h
  · exact plain (fun _ _ => rfl) h
  split at h
  · exact plain (fun _ _ => rfl) h
  split at h
  · exact plain (fun _ _ => rfl) h
  split at h
  · split at h
    · split at h
      · exact number (fun _ _ => rfl) h
      · exact number (fun _ _ => rfl) h
    · exact rejected h
  · exact rejected h

/-- Destroying a new tree. -/
theorem discard_left {h0 : Store Cell} {t : OTree} {p : Ptr} (hg : Grown h0 w.heap none t)
    (h : jdNodeDestroy (some t.addr) w = .ok (p, w')) : Spared h0 w'.heap := by
  obtain ⟨w1, hrun, hk, -⟩ := @discard w { w with heap := h0 } t hg rfl rfl
  cases h.symm.trans hrun
  exact ⟨hk.size, hk.frame⟩

theorem parseScalar_left {chr : UInt8} {es es' : Option UInt8} {ok : Bool} {p : Ptr}
    (hc : Stands w.heap c) (h : parseScalar (Parent.ptr c) chr es w = .ok ((ok, p, es'), w')) :
    Left w.heap w'.heap c ok p := by
  unfold parseScalar at h
  obtain ⟨⟨ok1, handle⟩, w1, hread, h⟩ := M.bind_eq_ok h
  obtain ⟨hk1, hstr⟩ := readString_left hread
  dsimp only at h
  cases ok1 with
  | false =>
    rw [if_neg Bool.false_ne_true] at h hstr
    unfold readStringDestroy at h
    rw [hstr, M.bind_ok (M.bind_ok (free_none w1))] at h
    cases h
    exact .failed hk1.spared
  | true =>
    rw [if_pos rfl] at h hstr
    obtain ⟨a, s, hstr, hlo, htext⟩ := hstr
    rw [hstr] at h
    cases ho : w1.oracle w1.mallocs with
    | false =>
      rw [M.bind_ok (create_fail ho none none), if_neg (by simp)] at h
      cases h
      exact .lost hk1.spared
    | true =>
      rw [M.bind_ok (create_run ho), if_pos (by rfl)] at h
      obtain ⟨w2, hw2⟩ : ∃ w2, w2 =
        { w1 with heap := w1.heap.alloc (.node newNode), mallocs := w1.mallocs + 1 } := ⟨_, rfl⟩
      rw [← hw2] at h
      have hheap2 : w2.heap = w1.heap.alloc (.node newNode) := by rw [hw2]
      have hn2 : w2.heap.get? w1.heap.size = some (.node newNode) := by
        rw [hheap2]
        exact Store.get?_alloc_self _ _
      have htext2 : w2.heap.get? a = some (.text (s ++ [0])) := by
        rw [hheap2]
        exact (Store.get?_alloc_lt (Store.lt_size htext)).trans htext
      have hlo2 : w.heap.size ≤ w2.heap.size := by
        rw [hheap2, Store.size_alloc]
        exact Nat.le_succ_of_le hk1.size
      -- the node is set; it is adopted or destroyed
      have finish : ∀ {retval : Bool} {w3 : World} {type : JdType} {text : Option Bytes},
          Leaf w.heap.size w2.heap w3.heap w1.heap.size type text →
          (if retval then do
            if (Parent.ptr c).isSome then jdNodeAdopt (some w1.heap.size) (Parent.ptr c) none
            pure (true, some w1.heap.size, es.map fun _ => handle.endSignal)
          else do
            let _ ← jdNodeDestroy (some w1.heap.size)
            pure (false, none, es.map fun _ => handle.endSignal) : M (Bool × Ptr × Option UInt8)) w3 =
            .ok ((ok, p, es'), w') → Left w.heap w'.heap c ok p := by
        intro retval w3 type text hl h
        have hg := hl.grown hk1.size hk1.frame hheap2
        cases retval with
        | true =>
          rw [if_pos rfl] at h
          obtain ⟨h', hrun, hg', -⟩ := attach hc hg
          have hend := (hrun fun _ => pure (true, some w1.heap.size, es.map fun _ => handle.endSignal)).symm.trans h
          cases hend
          exact .made hg'
        | false =>
          rw [if_neg Bool.false_ne_true] at h
          obtain ⟨_, w4, hdestroy, h⟩ := M.bind_eq_ok h
          have hs := discard_left hg hdestroy
          cases h
          exact .failed hs
      by_cases hq : chr = ch '"'
      · rw [if_pos hq] at h
        dsimp only [stealReadString] at h
        obtain ⟨w3, htake, -, hl, -⟩ := leaf_string hn2 htext2 hlo
        rw [hstr, M.bind_ok htake, M.bind_ok (M.pure_run _ _)] at h
        exact finish hl h
      · rw [if_neg hq] at h
        obtain ⟨retval, w3, hset, h⟩ := M.bind_eq_ok h
        obtain ⟨type, text, hl⟩ := setUnquoted_left hn2 htext2 hlo2 hset
        exact finish hl h

/-! ## A freed node in a child list -/

/-- **`jd_Node_destroy` does not return** from a child list that ends in the freed node `b`. -/
theorem destroy_dead {b : Addr} {ts : List OTree} {parent prev : Ptr} (hb : w.heap.get? b = none)
    (hts : Chain (links w.heap) parent prev (some b) ts) (ho : Owned w.heap (addrsList ts))
    (hfuel : (addrsList ts).length ≤ fuel) :
    ∃ e, jdNodeDestroy.run fuel (firstOf ts (some b)) w = .error e := by
  induction ts generalizing w fuel prev with
  | nil =>
    cases fuel with
    | zero => exact ⟨.timeout, rfl⟩
    | succ fuel =>
      have hload : load (some b) w = .error .badAccess := by
        unfold load
        simp only [hb]
      refine ⟨.badAccess, ?_⟩
      rw [firstOf_nil]
      unfold jdNodeDestroy.run
      exact M.bind_error (M.bind_error hload)
  | cons t us ih =>
    obtain ⟨a, ks⟩ := t
    rw [addrsList_cons, addrs_node, List.cons_append] at ho hfuel
    rw [List.length_cons, List.length_append] at hfuel
    rw [chain_cons, linked_node] at hts
    obtain ⟨⟨hlink, hks⟩, hus⟩ := hts
    obtain ⟨n, hn, hlinks⟩ := links_some hlink
    have hfirst : n.firstChild = firstOf ks none := congrArg Links.first hlinks
    have hnext : n.nextSibling = firstOf us (some b) := congrArg Links.next hlinks
    have hl : ∀ x ∈ a :: (addrsList ks ++ addrsList us), ∃ k, links w.heap x = some k := by
      intro x hx
      rcases List.mem_cons.1 hx with rfl | hx
      · exact ⟨_, hlink⟩
      rcases List.mem_append.1 hx with hx | hx
      · exact hks.live x hx
      · exact hus.live x hx
    obtain ⟨hoK, hoU, -⟩ := ho.apart hl
    cases fuel with
    | zero => omega
    | succ fuel =>
      have hdown := @destroy_chain fuel w ks _ _ hks hoK (by omega)
      rw [← hfirst] at hdown
      obtain ⟨h1, n1, hrun1, -, hn1, hnext1, -, hget1, hsame1⟩ := destroy_below hn ho hl
        (fun h => by rw [firstOf_eq_none.1 (hfirst.symm.trans h), addrsList_nil]) hdown
      have hab : b ≠ a := by
        rintro rfl
        rw [hb] at hn
        cases hn
      have hb1 : h1.get? b = none := by
        rw [hget1 b hab, hb, ite_self]
      obtain ⟨hoU1, -⟩ := hoU.frame hsame1
      have hus1 : Chain (links h1) parent (some a) (some b) us :=
        chain_congr (fun x hx => links_congr (hsame1 x (mem_blocks_left hx))) hus
      obtain ⟨e, he⟩ := @ih { w with heap := h1 } fuel _ hb1 hus1 hoU1 (by omega)
      have hsome : n1.nextSibling.isSome = true := by
        rw [hnext1, hnext]
        cases us <;> rfl
      refine ⟨e, ?_⟩
      rw [firstOf_cons, addr_node]
      unfold jdNodeDestroy.run
      rw [M.bind_ok (getNode_run w hn)]
      refine (hrun1 _).trans ?_
      rw [M.bind_ok (getNode_run { w with heap := h1 } hn1), if_pos hsome]
      rw [← hnext, ← hnext1] at he
      exact M.bind_error he

/-- The child list of `c` goes on with the freed node `b`, which was new. -/
structure Dangling (h h' : Store Cell) (c : Parent) (b : Addr) : Prop where
  size : h.size ≤ h'.size
  stays : Stays h h'
  new : h.size ≤ b
  gone : h'.get? b = none
  root : links h' c.addr = some
    { parent := c.up, next := c.next, first := firstOf c.kids (some b), prev := c.prev, last := some b }
  chain : Chain (links h') (some c.addr) none (some b) c.kids

/-- Releasing a new node that is linked already. -/
theorem dangling_of {h h1 h2 : Store Cell} {c : Parent} {b : Addr} (hc : Stands h (some c))
    (hg : Grown h h1 (some c) (.node b [])) (hsize : h2.size = h1.size) (hb : h2.get? b = none)
    (hold : ∀ x < h.size, h2.get? x = h1.get? x) : Dangling h h2 c b := by
  have hlt := linked_lt hc.1
  have hkeep : ∀ x ∈ c.addr :: addrsList c.kids, links h2 x = links h1 x := fun x hx =>
    links_congr (hold x (hlt x (by rw [Parent.tree, addrs_node]; exact hx)))
  have hhangs := hg.hangs
  rw [Hangs, Parent.tree, linked_node, chain_append] at hhangs
  obtain ⟨hroot, hchain, -⟩ := hhangs
  refine ⟨hsize ▸ hg.size, hg.stays.frame hold, hg.fresh b (mem_blocks_left (by simp)), hb, ?_, ?_⟩
  · rw [hkeep _ List.mem_cons_self, hroot]
    simp
  · exact chain_congr (fun x hx => hkeep x (List.mem_cons_of_mem _ hx)) hchain

theorem Dangling.release {h h' : Store Cell} {c : Parent} {b q : Addr} (hc : Stands h (some c))
    (hd : Dangling h h' c b) (hq : h.size ≤ q) : Dangling h (h'.release q) c b := by
  have hold : ∀ x < h.size, (h'.release q).get? x = h'.get? x := fun x hx =>
    Store.get?_release_ne (Nat.ne_of_lt (Nat.lt_of_lt_of_le hx hq))
  have hkeep : ∀ x ∈ c.addr :: addrsList c.kids, links (h'.release q) x = links h' x := fun x hx =>
    links_congr (hold x (linked_lt hc.1 x (by rw [Parent.tree, addrs_node]; exact hx)))
  refine ⟨by rw [Store.size_release]; exact hd.size, hd.stays.frame hold, hd.new, ?_,
    (hkeep _ List.mem_cons_self).trans hd.root,
    chain_congr (fun x hx => hkeep x (List.mem_cons_of_mem _ hx)) hd.chain⟩
  rw [Store.get?_release, hd.gone, ite_self]

/-- **A new collection with a freed member cannot be destroyed.** -/
theorem destroy_dangling {h0 h : Store Cell} {a b : Addr} {ts : List OTree} {p : Ptr}
    (hg : Grown h0 h none (.node a ts)) (hd : Dangling h w.heap (.detached a ts) b) :
    jdNodeDestroy (some a) w ≠ .ok (p, w') := by
  intro hrun
  obtain ⟨n, hn, hlinks⟩ := links_some hd.root
  change w.heap.get? a = some (.node n) at hn
  have hfirst : n.firstChild = firstOf ts (some b) := congrArg Links.first hlinks
  have hown := (hg.owned.stays hg.hangs.live hd.stays).1
  rw [addrs_node] at hown
  have hnodup := hown.nodup
  obtain ⟨-, hts⟩ := List.nodup_cons.1 hnodup
  -- there are more cells than nodes below the collection
  have hlen : (addrsList ts).length + 1 ≤ w.heap.size := by
    have hsub : a :: addrsList ts ⊆ List.range w.heap.size := fun x hx => by
      rcases List.mem_cons.1 hx with rfl | hx
      · exact List.mem_range.2 (Store.lt_size hn)
      · obtain ⟨k, hk⟩ := hd.chain.live x hx
        obtain ⟨m, hm, -⟩ := links_some hk
        exact List.mem_range.2 (Store.lt_size hm)
    simpa using hnodup.length_le_of_subset hsub
  obtain ⟨fuel, hfuel⟩ : ∃ fuel, w.heap.size = fuel + 1 := ⟨w.heap.size - 1, by omega⟩
  have hlen' : (addrsList ts).length ≤ fuel := by omega
  obtain ⟨e, he⟩ := destroy_dead hd.gone hd.chain
    (hown.subset hts fun x hx => List.mem_cons_of_mem _ hx) hlen'
  change jdNodeDestroy.run fuel (firstOf ts (some b)) w = .error e at he
  have hsome : n.firstChild.isSome = true := by
    rw [hfirst]
    cases ts <;> rfl
  unfold jdNodeDestroy at hrun
  rw [hfuel] at hrun
  unfold jdNodeDestroy.run at hrun
  rw [M.bind_ok (getNode_run w hn), if_pos hsome, M.bind_error (hfirst ▸ he)] at hrun
  cases hrun

/-! ## Properties -/

/-- What the tail of `Object_ReadMember` leaves of the label in the block `q` and the value read before
it, and what it returns: the property and the label left in the handle. -/
inductive PropertyLeft (w : World) (h h' : Store Cell) (c : Parent) (q : Addr) : Ptr → Ptr → Prop
  | denied : w.oracle w.mallocs = false → Spared h h' → PropertyLeft w h h' c q none (some q)
  | unlabelled {b : Addr} : w.oracle w.mallocs = true → w.oracle (w.mallocs + 1) = false →
      Dangling h h' c b → PropertyLeft w h h' c q none (some q)
  | built {t : OTree} : w.oracle (w.mallocs + 1) = true → Grown h h' (some c) t →
      PropertyLeft w h h' c q (some t.addr) none

theorem buildProperty_left {h0 h1 : Store Cell} {c : Parent} {q : Addr} {label : Bytes} {v p l : Ptr}
    (hc : Stands h0 (some c)) (hs : Spared h0 h1) (hv : Left h1 w.heap none true v)
    (hlo : h0.size ≤ q) (htext : h1.get? q = some (.text (label ++ [0])))
    (h : buildProperty (some c.addr) v (some q) w = .ok ((p, l), w')) :
    PropertyLeft w h0 w'.heap c q p l := by
  have hsw : Spared h1 w.heap := by
    cases hv with
    | lost hsw => exact hsw
    | made hg => exact ⟨hg.size, fun x hx => hg.frame x hx id⟩
  have hcw : Stands w.heap (some c) := hc.frame (hs.trans hsw).frame
  have hunfold := h
  unfold buildProperty at h
  cases ho : w.oracle w.mallocs with
  | false =>
    rw [M.bind_ok (create_fail ho _ _), if_neg (by simp)] at h
    cases h
    exact .denied ho (hs.trans hsw)
  | true =>
    obtain ⟨w1, hrun1, hs1, hm1, -, g1, n, hn, -, hpay⟩ := create_grown ho hcw
    change jdNodeCreate (some c.addr) none w = _ at hrun1
    rw [M.bind_ok hrun1, if_pos (by rfl)] at h
    unfold setType at h
    rw [M.bind_ok (modifyNode_run w1 hn _)] at h
    generalize hp : w.heap.size = b at *
    obtain ⟨w2, hw2⟩ : ∃ w2, w2 = { w1 with heap := w1.heap.put b (.node { n with type := .jdProperty }) } :=
      ⟨_, rfl⟩
    rw [← hw2] at h
    have ho2 : w2.oracle w2.mallocs = w.oracle (w.mallocs + 1) := by
      rw [hw2]
      exact (congrArg w1.oracle hm1).trans (congrFun hs1.oracle _)
    have g2 : Grown w.heap w2.heap (some c) (.node b []) := by
      rw [hw2]
      refine g1.set hcw (by simp) hn rfl fun q hq => ?_
      rw [hpay] at hq
      cases hq
    cases ho' : w.oracle (w.mallocs + 1) with
    | false =>
      rw [M.bind_ok (create_fail (ho2.trans ho') _ _), if_neg (by simp)] at h
      obtain ⟨w3, hw3⟩ : ∃ w3, w3 = { w2 with mallocs := w2.mallocs + 1 } := ⟨_, rfl⟩
      rw [← hw3] at h
      have hheap3 : w3.heap = w2.heap := by rw [hw3]
      have hchain : Chain (links w3.heap) (some c.addr) (prevOf (some c)) none [.node b []] := by
        rw [hheap3]
        exact chain_cons.2 ⟨g2.hangs.linked, chain_nil⟩
      obtain ⟨h4, hrun4, hrel⟩ := destroy_list hchain (by rw [hheap3]; simpa using g2.owned)
      change jdNodeDestroy (some b) w3 = _ at hrun4
      rw [M.bind_ok hrun4] at h
      cases h
      simp only [addrsList_cons, addrs_node, addrsList_nil, List.append_nil] at hrel
      have hfresh : ∀ x ∈ blocks w3.heap [b], h0.size ≤ x := fun x hx => by
        rw [hheap3] at hx
        exact Nat.le_trans (hs.trans hsw).size (g2.fresh x (by simpa using hx))
      refine .unlabelled ho ho' (dangling_of hc (g2.since (hs.trans hsw).size (hs.trans hsw).frame)
        (by rw [hrel.size, hheap3]) ?_ fun x hx => ?_)
      · rw [hrel.get, if_pos (mem_blocks_left List.mem_cons_self)]
      · rw [hrel.get, if_neg fun hm => absurd (hfresh x hm) (Nat.not_le_of_lt hx), hheap3]
    | true =>
      cases hv with
      | lost =>
        -- there is no value: the assertion of `jd_Node_adopt` fails
        obtain ⟨labelNode, w3, hcreate, h⟩ := M.bind_eq_ok h
        have hsome : labelNode = some w2.heap.size := by
          obtain ⟨w4, hrun4, -⟩ := @create_grown w2 (some (Parent.below (some c) b [])) (ho2.trans ho') g2.stands
          cases hcreate.symm.trans hrun4
          rfl
        rw [hsome, if_pos (by rfl)] at h
        obtain ⟨_, w4, -, h⟩ := M.bind_eq_ok h
        obtain ⟨_, w5, hadopt, -⟩ := M.bind_eq_ok h
        cases hadopt
      | made hg =>
        have hq : q < h1.size := Store.lt_size htext
        obtain ⟨w5, p', l', hrun5, -, -, -, hg5, -⟩ := @buildProperty_run { w with heap := h0 } w (some c) _ q
          label ho ho' hc (hg.since hs.size hs.frame) ⟨hlo, (hg.frame q hq id).trans htext, fun hx =>
            absurd (hg.fresh q hx) (Nat.not_le_of_lt hq)⟩
        cases hunfold.symm.trans hrun5
        exact .built ho' hg5

/-! ## The functions of the parser -/

theorem skipSpace_left {chr : UInt8} {r : Option UInt8} (h : skipSpace fuel chr w = .ok (r, w')) :
    ∃ s, w' = { w with toSrc := s } := by
  have hrun := @skipSpace_run fuel chr w
  cases hb : Reader.blanks fuel chr w.toSrc with
  | timeout =>
    rw [hb] at hrun
    cases h.symm.trans hrun
  | fail _ s | ok _ s =>
    rw [hb] at hrun
    cases h.symm.trans hrun
    exact ⟨s, rfl⟩

/-- What the loop of `Object_ReadMember` comes to: there is no value, or a value is read and, unless it
fails, made a property. -/
theorem memberLoop_cases {parent node label l : Ptr} {es : Option UInt8} {past : Bool}
    {r : Bool × Ptr × Option UInt8}
    (h : objectReadMember.loop fuel parent node es label past w = .ok ((r, l), w')) :
    (w.toSrc.valueStart past = none ∧ r = (false, node, es) ∧ l = label ∧ ∃ s, w' = { w with toSrc := s }) ∨
    ∃ n b s ok v e w2, n ≤ fuel ∧ w.toSrc.valueStart past = some (b, s) ∧
      jParser n none none b (some 0) { w with toSrc := s } = .ok ((ok, v, e), w2) ∧
      (Reader.afterLabelRequests fuel past w.toSrc = Reader.valueRequests n b s ++
        match Reader.value n b s with
        | .ok _ _ => [.property, .label]
        | _ => []) ∧
      (ok = false ∧ r.1 = false ∧ l = label ∧ w' = w2 ∨
        ok = true ∧ ∃ p, buildProperty parent v label w2 = .ok ((p, l), w') ∧ r.1 = p.isSome ∧
          (p.isSome = true → r.2.1 = p)) := by
  induction fuel generalizing w past with
  | zero => cases h
  | succ fuel ih =>
    unfold objectReadMember.loop at h
    rw [M.bind_ok (read_run w)] at h
    obtain ⟨r1, s, hr⟩ : ∃ r s, w.toSrc.read = (r, s) := ⟨_, _, rfl⟩
    unfold Reader.afterLabelRequests
    rw [hr] at h ⊢
    dsimp only at h ⊢
    cases r1 with
    | zero =>
      obtain ⟨rfl, hi, -⟩ := read_zero hr
      dsimp only at h
      rw [M.bind_ok (report_run _ _)] at h
      cases h
      refine .inl ⟨?_, rfl, rfl, _, rfl⟩
      rw [Src.valueStart, hi]
      rfl
    | minusOne =>
      obtain ⟨rfl, hi, -⟩ := read_minusOne hr
      cases h
      refine .inl ⟨?_, rfl, rfl, _, rfl⟩
      rw [Src.valueStart, hi]
      rfl
    | one b =>
      have hinput : w.input = b :: s.input := (read_one hr).1.input
      have hs : s = { w.toSrc with input := s.input, offset := w.offset + 1 } :=
        (Prod.mk.inj (hr.symm.trans (read_cons hinput))).2
      dsimp only at h ⊢
      by_cases h1 : isspace b = true
      · simp only [if_pos h1] at h ⊢
        have hstart : w.toSrc.valueStart past = s.valueStart past := by
          rw [Src.valueStart, hinput, JsonDom.valueStart, if_pos h1, hs]
          rfl
        rw [hstart]
        exact (ih h).imp id fun ⟨n, b, s, ok, v, e, w2, hle, hrest⟩ =>
          ⟨n, b, s, ok, v, e, w2, Nat.le_succ_of_le hle, hrest⟩
      rw [if_neg h1] at h
      rw [if_neg h1]
      by_cases h2 : b = ch ':'
      · simp only [if_pos h2] at h ⊢
        have hstart : w.toSrc.valueStart past = s.valueStart true := by
          rw [Src.valueStart, hinput, JsonDom.valueStart, if_neg h1, if_pos h2, hs]
          rfl
        rw [hstart]
        exact (ih h).imp id fun ⟨n, b, s, ok, v, e, w2, hle, hrest⟩ =>
          ⟨n, b, s, ok, v, e, w2, Nat.le_succ_of_le hle, hrest⟩
      rw [if_neg h2] at h
      rw [if_neg h2]
      cases past with
      | false =>
        rw [if_neg Bool.false_ne_true, M.bind_ok (report_run _ _)] at h
        cases h
        refine .inl ⟨?_, rfl, rfl, _, rfl⟩
        rw [Src.valueStart, hinput, JsonDom.valueStart, if_neg h1, if_neg h2, if_neg Bool.false_ne_true]
        rfl
      | true =>
        rw [if_pos rfl] at h
        obtain ⟨⟨ok, v, e⟩, w2, hval, h⟩ := M.bind_eq_ok h
        dsimp only at h
        refine .inr ⟨fuel, b, s, ok, v, e, w2, Nat.le_succ fuel, ?_, hval, if_pos rfl, ?_⟩
        · rw [Src.valueStart, hinput, JsonDom.valueStart, if_neg h1, if_neg h2, if_pos rfl]
          exact congrArg (fun s' => some (b, s')) hs.symm
        cases ok with
        | false =>
          cases h
          exact .inl ⟨rfl, rfl, rfl, rfl⟩
        | true =>
          rw [if_pos rfl] at h
          obtain ⟨⟨p, l'⟩, w3, hbuild, h⟩ := M.bind_eq_ok h
          refine .inr ⟨rfl, p, ?_⟩
          cases p <;> cases h
          · exact ⟨hbuild, rfl, by simp⟩
          · exact ⟨hbuild, rfl, fun _ => rfl⟩

end JsonDom
