import JsonDom.Model.Value
import JsonDom.Proof.Stringify

/-!
# The display text of a node

`Shows h x text len`: the node at `x` shows `text`, and `len` is the length `jd_node_value_length`
asks for. `jd_node_value` writes the text with its NUL into every buffer of this length
(`Shows.value`); the buffer must be no payload the text comes from.
-/

namespace JsonDom

open Lib

variable {h : Store Cell} {w : World} {x b : Addr} {n : JdNode} {text block : Bytes} {len off : Nat}

/-- The C string at a pointer of a payload. -/
def cstring (h : Store Cell) (p : Ptr) : Option Bytes :=
  match p.bind h.get? with
  | some (.text block) => if 0 ∈ block then some (block.takeWhile (· ≠ 0)) else none
  | _ => none

/-- The text that a node shows by itself. -/
def wordOf (h : Store Cell) (n : JdNode) : Option Bytes :=
  match n.type with
  | .jdNull => some (cs "null")
  | .jdTrue => some (cs "true")
  | .jdFalse => some (cs "false")
  | .jdString | .jdInteger | .jdFloat => cstring h n.payload
  | .jdArray => some (cs "*array*")
  | .jdObject => some (cs "*object*")
  | .jdProperty => none

/-- The text that the node at an address shows, and the length that is asked for it: a property shows
its label, a colon and the text of its value. -/
inductive Shows (h : Store Cell) : Addr → Bytes → Nat → Prop
  | word {x : Addr} {n : JdNode} {text : Bytes} : h.get? x = some (.node n) → wordOf h n = some text →
      Shows h x text (text.length + 1)
  | property {x l v : Addr} {n m k : JdNode} {label text : Bytes} : h.get? x = some (.node n) →
      n.type = .jdProperty → n.firstChild = some l → n.lastChild = some v →
      h.get? l = some (.node m) → m.type = .jdString → wordOf h m = some label →
      h.get? v = some (.node k) → wordOf h k = some text →
      Shows h x (label ++ [ch ':'] ++ text) ((label.length + 1) + (text.length + 1) + 2)

/-! ## Payloads -/

theorem cstring_some {p : Ptr} (hc : cstring h p = some text) :
    ∃ q block, p = some q ∧ h.get? q = some (.text block) ∧ 0 ∈ block ∧
      text = block.takeWhile (· ≠ 0) := by
  unfold cstring at hc
  split at hc
  · next block hb =>
    obtain ⟨q, rfl, hq⟩ := Option.bind_eq_some_iff.1 hb
    by_cases h0 : 0 ∈ block
    · rw [if_pos h0] at hc
      exact ⟨q, block, rfl, hq, h0, (Option.some.inj hc).symm⟩
    · rw [if_neg h0] at hc
      cases hc
  · cases hc

/-- The bytes of a C string with its NUL. -/
theorem take_cstring (h0 : 0 ∈ block) :
    block.take ((block.takeWhile (· ≠ 0)).length + 1) = block.takeWhile (· ≠ 0) ++ [0] := by
  induction block with
  | nil => cases h0
  | cons c block ih =>
    by_cases hc : c = 0
    · rw [List.takeWhile_cons_of_neg (by simpa using hc), hc]
      rfl
    · rw [List.takeWhile_cons_of_pos (by simpa using hc), List.length_cons, List.take_succ_cons,
        ih ((List.mem_cons.1 h0).resolve_left (Ne.symm hc))]
      rfl

theorem cstring_ne_zero {p : Ptr} (hc : cstring h p = some text) : 0 ∉ text := by
  obtain ⟨_, block, -, -, -, rfl⟩ := cstring_some hc
  intro hm
  simpa using List.all_eq_true.1 List.all_takeWhile 0 hm

/-- What a node shows has no NUL. -/
theorem wordOf_ne_zero (ht : wordOf h n = some text) : 0 ∉ text := by
  unfold wordOf at ht
  split at ht
  · cases ht
    decide
  · cases ht
    decide
  · cases ht
    decide
  · exact cstring_ne_zero ht
  · exact cstring_ne_zero ht
  · exact cstring_ne_zero ht
  · cases ht
    decide
  · cases ht
    decide
  · cases ht

theorem Shows.ne_zero (hs : Shows h x text len) : 0 ∉ text := by
  cases hs with
  | word _ ht => exact wordOf_ne_zero ht
  | property _ _ _ _ _ _ hl _ ht =>
    simp only [List.mem_append, List.mem_singleton, not_or]
    exact ⟨⟨wordOf_ne_zero hl, by decide⟩, wordOf_ne_zero ht⟩

/-- The length has room for the text and its NUL. -/
theorem Shows.fits (hs : Shows h x text len) : text.length + 1 ≤ len := by
  cases hs with
  | word => exact Nat.le_refl _
  | property =>
    simp only [List.length_append, List.length_singleton]
    omega

/-! ## Running on a node that shows a word -/

theorem strlen_run {p : Ptr} (hc : cstring w.heap p = some text) : strlen p w = .ok (text.length, w) := by
  obtain ⟨q, block, rfl, hq, h0, rfl⟩ := cstring_some hc
  unfold strlen
  rw [M.bind_ok (getString_run w hq h0)]
  rfl

/-- `memcpy` of the first bytes of a payload, with or without the NUL. -/
theorem getBytes_run {p : Ptr} (hc : cstring w.heap p = some text) :
    ∃ src, getBytes p w = .ok (src, w) ∧ src.take (text.length + 1) = text ++ [0] := by
  obtain ⟨q, block, rfl, hq, h0, rfl⟩ := cstring_some hc
  refine ⟨block, ?_, take_cstring h0⟩
  unfold getBytes
  rw [M.bind_ok (load_run w hq)]
  rfl

theorem length_word (hx : w.heap.get? x = some (.node n)) (ht : wordOf w.heap n = some text)
    (hlen : text.length + 1 ≤ 2147483647) (fuel : Nat) :
    jdNodeValueLength.run (fuel + 1) (some x) w = .ok ((text.length + 1 : Nat), w) := by
  have hpayload : cstring w.heap n.payload = some text →
      (do
        let len ← strlen n.payload
        pure (toInt (1 + len)) : M Int) w = .ok ((text.length + 1 : Nat), w) := by
    intro hc
    rw [M.bind_ok (strlen_run hc), Nat.add_comm, toInt_small hlen]
    rfl
  unfold jdNodeValueLength.run
  rw [M.bind_ok (getNode_run w hx)]
  unfold wordOf at ht
  cases htype : n.type with rw [htype] at ht
  | jdNull | jdTrue | jdFalse | jdArray | jdObject =>
    cases ht
    rfl
  | jdString | jdInteger | jdFloat => exact hpayload ht
  | jdProperty => cases ht

/-- What is copied for a word. -/
theorem memcpy_word {src : Bytes} (hb : w.heap.get? b = some (.text block))
    (hsrc : src.take (text.length + 1) = text ++ [0]) (hfit : off + (text.length + 1) ≤ block.length) :
    memcpy (some b) off src (text.length + 1 : Nat) w =
      .ok ((), { w with heap := w.heap.put b (.text (splice block off (text ++ [0]))) }) := by
  have hlen : text.length + 1 ≤ src.length := by
    have := congrArg List.length hsrc
    rw [List.length_take, List.length_append, List.length_singleton] at this
    omega
  rw [memcpy_run hb hlen hfit, hsrc]

theorem value_word (hx : w.heap.get? x = some (.node n)) (ht : wordOf w.heap n = some text)
    (hlen : text.length + 1 ≤ 2147483647) (hb : w.heap.get? b = some (.text block))
    (hfit : off + (text.length + 1) ≤ block.length) {bufflen : Int} (hroom : (text.length + 1 : Nat) ≤ bufflen)
    (fuel : Nat) : jdNodeValue.run (fuel + 1) (some x) (some b) off bufflen w =
      .ok ((text.length + 1 : Nat),
        { w with heap := w.heap.put b (.text (splice block off (text ++ [0]))) }) := by
  obtain ⟨size, hsize⟩ := Nat.exists_eq_add_one.2 (Nat.zero_lt_of_lt (Store.lt_size hx))
  have hlength : jdNodeValueLength (some x) w = .ok ((text.length + 1 : Nat), w) := by
    unfold jdNodeValueLength
    rw [hsize]
    exact length_word hx ht hlen size
  have hliteral : ∀ word, word = text → memcpy (some b) off (word ++ [0]) (text.length + 1 : Nat) w =
      .ok ((), { w with heap := w.heap.put b (.text (splice block off (text ++ [0]))) }) := by
    rintro word rfl
    exact memcpy_word hb (List.take_of_length_le (Nat.le_of_eq List.length_append)) hfit
  unfold jdNodeValue.run
  rw [M.bind_ok (getNode_run w hx), M.bind_ok hlength, if_pos hroom]
  unfold wordOf at ht
  cases htype : n.type with rw [htype] at ht
  | jdNull | jdTrue | jdFalse | jdArray | jdObject => exact M.bind_ok (hliteral _ (Option.some.inj ht))
  | jdString | jdInteger | jdFloat =>
    obtain ⟨src, hsrc, htake⟩ := getBytes_run ht
    exact (M.bind_ok hsrc).trans (M.bind_ok (memcpy_word hb htake hfit))
  | jdProperty => cases ht

/-! ## Running on any node -/

/-- A property and its value are two cells: the recursion has the fuel for both. -/
theorem property_size {v : Addr} {k : JdNode} (hx : h.get? x = some (.node n)) (htype : n.type = .jdProperty)
    (hv : h.get? v = some (.node k)) (ht : wordOf h k = some text) : ∃ size, h.size = size + 1 + 1 := by
  have hne : x ≠ v := by
    rintro rfl
    cases hx.symm.trans hv
    rw [wordOf, htype] at ht
    cases ht
  have hxs := Store.lt_size hx
  have hvs := Store.lt_size hv
  refine ⟨h.size - 2, ?_⟩
  rcases Nat.lt_or_gt_of_ne hne with hlt | hgt <;> omega

/-- The length `jd_node_value_length` returns. -/
theorem Shows.length (hs : Shows w.heap x text len) (hlen : len ≤ 2147483647) :
    jdNodeValueLength (some x) w = .ok (len, w) := by
  unfold jdNodeValueLength
  cases hs with
  | @word n text hx ht =>
    obtain ⟨size, hsize⟩ := Nat.exists_eq_add_one.2 (Nat.zero_lt_of_lt (Store.lt_size hx))
    rw [hsize]
    exact length_word hx ht hlen size
  | @property l v n m k label text hx htype hfirst hlast hl hm hlabel hv ht =>
    obtain ⟨size, hsize⟩ := property_size hx htype hv ht
    rw [hsize]
    unfold jdNodeValueLength.run
    rw [M.bind_ok (getNode_run w hx), htype, hfirst, hlast]
    dsimp only
    rw [M.bind_ok (length_word hl hlabel (by omega) size), M.bind_ok (length_word hv ht (by omega) size),
      M.bind_ok (addInt_run (by unfold intMax; omega) (by unfold intMax; omega) w)]
    exact addInt_run (by unfold intMax; omega) (by unfold intMax; omega) w

/-- A buffer that is not a node's payload does not matter for what the node shows. -/
theorem wordOf_put (hp : n.payload ≠ some b) {c : Cell} : wordOf (h.put b c) n = wordOf h n := by
  have hc : cstring (h.put b c) n.payload = cstring h n.payload := by
    unfold cstring
    cases hq : n.payload with
    | none => rfl
    | some q =>
      have hne : q ≠ b := fun he => hp (hq.trans (congrArg some he))
      rw [Option.bind_some, Option.bind_some, Store.get?_put_ne hne]
  unfold wordOf
  rw [hc]

/-- The text of a property: the label, the colon, and the value behind them. -/
theorem value_property {l v : Addr} {m k : JdNode} {label : Bytes} (hx : w.heap.get? x = some (.node n))
    (htype : n.type = .jdProperty) (hfirst : n.firstChild = some l) (hlast : n.lastChild = some v)
    (hl : w.heap.get? l = some (.node m)) (hm : m.type = .jdString) (hlabel : wordOf w.heap m = some label)
    (hv : w.heap.get? v = some (.node k)) (ht : wordOf w.heap k = some text)
    (hlength : jdNodeValueLength (some x) w = .ok (len, w))
    (hlen : len = (label.length + 1) + (text.length + 1) + 2) (hint : len ≤ 2147483647)
    (hb : w.heap.get? b = some (.text block)) (hfit : len ≤ block.length) (hk : k.payload ≠ some b)
    {bufflen : Int} (hroom : (len : Int) ≤ bufflen) (fuel : Nat) :
    jdNodeValue.run (fuel + 1 + 1) (some x) (some b) 0 bufflen w = .ok ((len : Int),
      { w with heap := w.heap.put b (.text (splice block 0 (label ++ [ch ':'] ++ text ++ [0]))) }) := by
  have hbs := Store.lt_size hb
  have hbv : v ≠ b := by
    rintro rfl
    cases hv.symm.trans hb
  -- the label without its NUL
  have hllen := (Shows.word hl hlabel).length (by omega)
  have hpay : cstring w.heap m.payload = some label := by rw [wordOf, hm] at hlabel; exact hlabel
  obtain ⟨src, hsrc, htake⟩ := getBytes_run hpay
  have hsrclen : label.length + 1 ≤ src.length := by
    have := congrArg List.length htake
    rw [List.length_take, List.length_append, List.length_singleton] at this
    omega
  have hcopy := @memcpy_run w b block hb 0 label.length src (by omega) (by omega)
  have htake' : src.take label.length = label := by
    have := congrArg (List.take label.length) htake
    rwa [List.take_take, Nat.min_eq_left (Nat.le_succ _), List.take_left' rfl] at this
  rw [htake'] at hcopy
  -- the colon
  have hb1 := @Store.get?_put_self _ w.heap b (Cell.text (splice block 0 label)) hbs
  have hlen1 : (splice block 0 label).length = block.length := length_splice (by omega)
  have hcolon := @putChar_run { w with heap := w.heap.put b (.text (splice block 0 label)) } b _ hb1
    label.length (by omega) (ch ':')
  have hjoin := @splice_splice _ block label [ch ':'] 0 (Nat.zero_le _)
  rw [Nat.zero_add] at hjoin
  dsimp only at hcolon
  rw [Store.put_put, hjoin] at hcolon
  -- the value
  generalize hlab : label ++ [ch ':'] = lab at hjoin hcolon ⊢
  have hlablen : lab.length = label.length + 1 := by rw [← hlab, List.length_append, List.length_singleton]
  have hb2 := @Store.get?_put_self _ w.heap b (Cell.text (splice block 0 lab)) hbs
  have hlen2 : (splice block 0 lab).length = block.length := length_splice (by omega)
  have hv2 : (w.heap.put b (Cell.text (splice block 0 lab))).get? v = some (.node k) := by
    rw [Store.get?_put_ne hbv, hv]
  have hvalue := @value_word { w with heap := w.heap.put b (.text (splice block 0 lab)) } v b k text
    (splice block 0 lab) (label.length + 1) hv2 ((wordOf_put hk).trans ht) (by omega) hb2 (by omega)
    (text.length + 3 : Nat) (by omega) fuel
  have hjoin2 := @splice_splice _ block lab (text ++ [0]) 0 (Nat.zero_le _)
  rw [Nat.zero_add, hlablen, ← List.append_assoc] at hjoin2
  dsimp only at hvalue
  rw [Store.put_put, hjoin2] at hvalue
  -- the lengths between
  have htlen : ((label.length + 1 : Nat) : Int) + -1 = label.length := by omega
  have hrest : (len : Int) + -(label.length : Int) + -1 = (text.length + 3 : Nat) := by omega
  have hminus := @addInt_run (label.length + 1 : Nat) (-1) (by unfold intMax; omega)
    (by unfold intMax; omega) w
  rw [htlen] at hminus
  have hcolonPos : (0 : Int) + label.length = (label.length : Nat) := Int.zero_add _
  unfold jdNodeValue.run
  rw [M.bind_ok (getNode_run w hx), M.bind_ok hlength, if_pos hroom, htype, hfirst, hlast]
  refine (M.bind_ok hllen).trans ((M.bind_ok hminus).trans ?_)
  refine (M.bind_ok (getNode_run w hl)).trans ((M.bind_ok hsrc).trans ?_)
  refine (M.bind_ok hcopy).trans ?_
  rw [hcolonPos]
  refine (M.bind_ok hcolon).trans ?_
  rw [M.bind_ok (addInt_run (by unfold intMax; omega) (by unfold intMax; omega) _),
    M.bind_ok (addInt_run (by unfold intMax; omega) (by unfold intMax; omega) _), hrest]
  exact M.bind_ok hvalue

/-- **`jd_node_value` writes the text with its NUL** into a buffer that has the length. -/
theorem Shows.value (hs : Shows w.heap x text len) (hint : len ≤ 2147483647)
    (hb : w.heap.get? b = some (.text block)) (hfit : len ≤ block.length)
    (hapart : ∀ n v, w.heap.get? x = some (.node n) → n.lastChild = some v →
      payloadOf w.heap v ≠ some b)
    {bufflen : Int} (hroom : (len : Int) ≤ bufflen) :
    jdNodeValue (some x) (some b) bufflen w = .ok ((len : Int),
      { w with heap := w.heap.put b (.text (splice block 0 (text ++ [0]))) }) := by
  have hlength := hs.length hint
  unfold jdNodeValue
  cases hs with
  | @word n text hx ht =>
    obtain ⟨size, hsize⟩ := Nat.exists_eq_add_one.2 (Nat.zero_lt_of_lt (Store.lt_size hx))
    rw [hsize]
    exact @value_word w x b n text block 0 hx ht hint hb (by omega) bufflen hroom size
  | @property l v n m k label text hx htype hfirst hlast hl hm hlabel hv ht =>
    obtain ⟨size, hsize⟩ := property_size hx htype hv ht
    have hk := hapart n v hx hlast
    rw [payloadOf, hv] at hk
    rw [hsize]
    exact value_property hx htype hfirst hlast hl hm hlabel hv ht hlength rfl hint hb hfit hk hroom size

/-- A buffer that is too small is left alone. -/
theorem Shows.value_short (hs : Shows w.heap x text len) (hint : len ≤ 2147483647) (buffer : Ptr)
    {bufflen : Int} (hshort : bufflen < len) : jdNodeValue (some x) buffer bufflen w = .ok ((len : Int), w) := by
  have hlength := hs.length hint
  obtain ⟨n, hx⟩ : ∃ n, w.heap.get? x = some (.node n) := by
    cases hs with
    | word hx | property hx => exact ⟨_, hx⟩
  obtain ⟨size, hsize⟩ := Nat.exists_eq_add_one.2 (Nat.zero_lt_of_lt (Store.lt_size hx))
  unfold jdNodeValue
  rw [hsize]
  unfold jdNodeValue.run
  rw [M.bind_ok (getNode_run w hx), M.bind_ok hlength, if_neg (by omega)]
  rfl

end JsonDom
