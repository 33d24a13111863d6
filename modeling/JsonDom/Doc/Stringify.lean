import JsonDom.Proof.Stringify

/-!
# The stringify functions and their buffer

`jd_Node_stringify_generic` keeps within the buffer, and leaves the longest prefix that fits in it
with its NUL, exactly when the buffer has not the size of the text with its NUL and none of the copies
that are left out would have changed anything (`stringifies_iff`).
-/

namespace JsonDom

open Lib

variable {w : World} {a b : Addr} {n : Nat} {v block : Bytes}

/-- A call on the node `a`, which has the type the function is for and the value text `v`. -/
inductive StringifyCall (h : Store Cell) (a : Addr) (v : Bytes) :
    (Ptr → Int → M (Int × JdNodeError)) → Prop
  | generic {node : JdNode} {value : CStr} : h.get? a = some (.node node) →
      (∀ w : World, w.heap = h → value.read w = .ok (some v, w)) →
      StringifyCall h a v fun buffer bufflen =>
        jdNodeStringifyGeneric (some a) buffer bufflen node.type value
  | null {node : JdNode} : h.get? a = some (.node node) → node.type = .jdNull → v = cs "null" →
      StringifyCall h a v (jdNodeStringifyNull (some a))
  | true {node : JdNode} : h.get? a = some (.node node) → node.type = .jdTrue → v = cs "true" →
      StringifyCall h a v (jdNodeStringifyTrue (some a))
  | false {node : JdNode} : h.get? a = some (.node node) → node.type = .jdFalse → v = cs "false" →
      StringifyCall h a v (jdNodeStringifyFalse (some a))
  | payload {node : JdNode} {q : Addr} {text : Bytes} {call : Ptr → Int → M (Int × JdNodeError)} :
      h.get? a = some (.node node) → node.payload = some q → h.get? q = some (.text text) → 0 ∈ text →
      v = text.takeWhile (· ≠ 0) →
      (node.type = .jdString ∧ call = jdNodeStringifyString (some a) ∨
        node.type = .jdInteger ∧ call = jdNodeStringifyInteger (some a) ∨
        node.type = .jdFloat ∧ call = jdNodeStringifyFloat (some a)) →
      StringifyCall h a v call

/-- The call with the `n` bytes at `b` as its buffer writes nothing but these, returns the length of
the text with its NUL, and the buffer starts with the longest prefix that fits and a NUL. -/
def Stringifies (call : Ptr → Int → M (Int × JdNodeError)) (w : World) (b : Addr) (n : Nat) (v : Bytes) :
    Prop :=
  ∃ err w' block', call (some b) n w = .ok (((v.length + 1 : Nat), err), w') ∧
    w' = { w with heap := w.heap.put b (.text block') } ∧ block'.length = n ∧
    v.take (n - 1) ++ [0] <+: block'

/-- Where it does: the text fits in an `int`, and the buffer is too small, without the one character
that is not copied making a difference, or it has a byte more than the text and its NUL need, without
the NUL that is not copied making a difference. -/
def BufferRight (n : Nat) (v block : Bytes) : Prop :=
  v.length < 2147483647 ∧
    (n ≤ v.length ∧ (n = 2 → block.head? = v.head?) ∨ v.length + 2 ≤ n ∧ (v = [] → block.head? = some 0))

/-- The copy and the NUL behind it. -/
def fill (buffer : Ptr) (copylen : Int) (value : Bytes) : M Unit := do
  if 1 < copylen then memcpy buffer 0 (value ++ [0]) copylen
  putChar buffer copylen 0

/-- The part of `jd_Node_stringify_generic` behind its checks. -/
def fillBuffer (buffer : Ptr) (bufflen : Int) (value : Bytes) : M (Int × JdNodeError) := do
  let retval := toInt (value.length + 1)
  if buffer.isSome ∧ 0 < bufflen then
    fill buffer (if bufflen < retval then bufflen - 1 else retval) value
  pure (retval, .jneSuccess)

theorem generic_run {node : JdNode} {value : CStr} (hn : w.heap.get? a = some (.node node))
    (hv : value.read w = .ok (some v, w)) (buffer : Ptr) (bufflen : Int) :
    jdNodeStringifyGeneric (some a) buffer bufflen node.type value w = fillBuffer buffer bufflen v w := by
  unfold jdNodeStringifyGeneric
  rw [if_neg (Option.some_ne_none a), M.bind_ok (getNode_run w hn), if_neg (not_not.2 rfl), M.bind_ok hv]
  unfold fillBuffer fill
  dsimp only
  generalize (if bufflen < toInt (v.length + 1) then bufflen - 1 else toInt (v.length + 1)) = copylen
  split
  · split
    · rw [bind_assoc]
    · rfl
  · rfl

theorem call_run {call : Ptr → Int → M (Int × JdNodeError)} (hc : StringifyCall w.heap a v call)
    (buffer : Ptr) (bufflen : Int) : call buffer bufflen w = fillBuffer buffer bufflen v w := by
  cases hc with
  | generic hn hv => exact generic_run hn (hv w rfl) buffer bufflen
  | null hn ht hv | true hn ht hv | false hn ht hv =>
    have hread : CStr.read (.literal v) w = .ok (some v, w) := rfl
    have := generic_run hn hread buffer bufflen
    rw [ht, hv] at this
    rw [hv]
    exact this
  | @payload node q text _ hn hp hq h0 hv hcall =>
    have hread : CStr.read (.payload node.payload) w = .ok (some v, w) := by
      rw [hp, hv]
      exact M.bind_ok (getString_run w hq h0)
    have := generic_run hn hread buffer bufflen
    rcases hcall with ⟨ht, rfl⟩ | ⟨ht, rfl⟩ | ⟨ht, rfl⟩ <;>
    · rw [ht] at this
      exact (M.bind_ok (getNode_run w hn)).trans this

/-- The buffer behind the copy of `k` bytes: one byte alone is not copied. -/
def copied (v block : Bytes) (k : Nat) : Bytes := if 1 < k then splice block 0 ((v ++ [0]).take k) else block

theorem length_copied {k : Nat} (hk : k ≤ v.length + 1) (hn : k ≤ block.length) :
    (copied v block k).length = block.length := by
  unfold copied
  split
  · apply length_splice
    rw [List.length_take, List.length_append, List.length_singleton]
    omega
  · rfl

theorem take_copied {k : Nat} (hk : k ≤ v.length + 1) :
    (copied v block k).take k = if 1 < k then (v ++ [0]).take k else block.take k := by
  unfold copied
  split
  · have hlen : ((v ++ [0]).take k).length = k := by
      rw [List.length_take, List.length_append, List.length_singleton]
      omega
    rw [splice_zero, List.take_left' hlen]
  · rfl

theorem take_one_eq {s t : Bytes} : s.take 1 = t.take 1 ↔ t.head? = s.head? := by
  cases s <;> cases t <;> simp [eq_comm]

theorem fill_run (hb : w.heap.get? b = some (.text block)) {k : Nat} (hk : k ≤ v.length + 1)
    (hn : k ≤ block.length) : fill (some b) k v w =
      if k < block.length then
        .ok ((), { w with heap := w.heap.put b (.text (splice (copied v block k) k [0])) })
      else .error .badAccess := by
  have hlen := length_copied hk hn
  -- behind the copy
  have hend : ∀ h : Store Cell, h.get? b = some (.text (copied v block k)) →
      putChar (some b) k 0 { w with heap := h } = if k < block.length then
        .ok ((), { w with heap := h.put b (.text (splice (copied v block k) k [0])) })
      else .error .badAccess := by
    intro h hget
    split
    · next hlt => exact @putChar_run { w with heap := h } b _ hget k (by omega) 0
    · next hlt => exact @putChar_out { w with heap := h } b _ hget k (by omega) 0
  unfold fill
  by_cases h1 : 1 < k
  · have hcopy := @memcpy_run w b block hb 0 k (v ++ [0]) (by simpa using hk) (by omega)
    have hc : copied v block k = splice block 0 ((v ++ [0]).take k) := if_pos h1
    rw [if_pos (by exact_mod_cast h1)]
    refine (M.bind_ok hcopy).trans ?_
    have hput := hend (w.heap.put b (.text (copied v block k))) (Store.get?_put_self (Store.lt_size hb))
    rw [Store.put_put] at hput
    rw [← hc]
    exact hput
  · have hc : copied v block k = block := if_neg h1
    have hget : w.heap.get? b = some (.text (copied v block k)) := by rw [hc]; exact hb
    rw [if_neg (by exact_mod_cast h1)]
    exact hend w.heap hget

/-- The number of bytes that are copied, or the index of the NUL. -/
def copyLen (n : Nat) (v : Bytes) : Nat := if n ≤ v.length then n - 1 else v.length + 1

theorem copyLen_le (n : Nat) (v : Bytes) : copyLen n v ≤ v.length + 1 ∧ copyLen n v ≤ n := by
  unfold copyLen
  split <;> omega

/-- The buffer behind a call, where the NUL has a place in it. -/
def filled (v block : Bytes) (n : Nat) : Bytes := splice (copied v block (copyLen n v)) (copyLen n v) [0]

theorem fillBuffer_run (hb : w.heap.get? b = some (.text block)) (hn : block.length = n) (hpos : 0 < n)
    (hfit : v.length < 2147483647) : fillBuffer (some b) n v w =
      if copyLen n v < n then .ok (((v.length + 1 : Nat), .jneSuccess),
        { w with heap := w.heap.put b (.text (filled v block n)) })
      else .error .badAccess := by
  obtain ⟨hkv, hkn⟩ := copyLen_le n v
  have hfill := @fill_run w b v block hb (copyLen n v) hkv (by omega)
  have hcopylen : (if (n : Int) < (v.length + 1 : Nat) then (n : Int) - 1 else (v.length + 1 : Nat)) =
      copyLen n v := by
    unfold copyLen
    split <;> split <;> omega
  rw [hn] at hfill
  unfold fillBuffer
  dsimp only
  rw [toInt_small (by omega), if_pos ⟨rfl, by omega⟩, hcopylen]
  by_cases hlt : copyLen n v < n
  · rw [if_pos hlt] at hfill ⊢
    exact M.bind_ok hfill
  · rw [if_neg hlt] at hfill ⊢
    exact M.bind_error hfill

/-- The result is not the length where this is no `int`. -/
theorem fillBuffer_long (hfit : ¬ v.length < 2147483647) (hpos : 0 < n) {r : Int} {err : JdNodeError}
    {w' : World} (hrun : fillBuffer (some b) n v w = .ok ((r, err), w')) : r ≠ (v.length + 1 : Nat) := by
  have hret := @toInt_large (v.length + 1) (by omega)
  unfold fillBuffer at hrun
  dsimp only at hrun
  rw [if_pos ⟨rfl, by omega⟩] at hrun
  obtain ⟨_, w1, _, hpure⟩ := M.bind_eq_ok hrun
  have hr : toInt (v.length + 1) = r := congrArg (fun r => r.1.1) (Except.ok.inj hpure)
  rwa [← hr]

/-- A buffer that is too small starts with the text's bytes and the NUL, unless it has two bytes: then
its first byte is not written. -/
theorem short_buffer (hn : block.length = n) (hpos : 0 < n) (hle : n ≤ v.length) :
    v.take (n - 1) ++ [0] <+: filled v block n ↔ (n = 2 → block.head? = v.head?) := by
  obtain ⟨hkv, hkn⟩ := copyLen_le n v
  have hlen := @length_copied v block _ hkv (by omega)
  have htake := @take_copied v block _ hkv
  have hk : copyLen n v = n - 1 := if_pos hle
  unfold filled
  rw [← hk, append_prefix_splice (by rw [List.length_take]; omega) (by omega), htake]
  by_cases h1 : 1 < copyLen n v
  · have h2 : n ≠ 2 := by omega
    rw [if_pos h1, List.take_append_of_le_length (by omega)]
    exact iff_of_true rfl fun h => absurd h h2
  · rw [if_neg h1]
    obtain hk0 | hk1 : copyLen n v = 0 ∨ copyLen n v = 1 := by omega
    · have h2 : n ≠ 2 := by omega
      rw [hk0]
      exact iff_of_true rfl fun h => absurd h h2
    · have h2 : n = 2 := by omega
      rw [hk1, take_one_eq]
      exact ⟨fun h _ => h, fun h => h h2⟩

/-- A buffer that is large enough starts with the text and its NUL, unless the text is empty: then it
has its NUL behind a byte that is not written. -/
theorem long_buffer (hn : block.length = n) (hlt : v.length + 2 ≤ n) :
    v ++ [0] <+: filled v block n ↔ (v = [] → block.head? = some 0) := by
  obtain ⟨hkv, hkn⟩ := copyLen_le n v
  have hlen := @length_copied v block _ hkv (by omega)
  have htake := @take_copied v block _ hkv
  have hk : copyLen n v = v.length + 1 := if_neg (by omega)
  have hvk : (v ++ [0]).length = copyLen n v := by rw [hk, List.length_append, List.length_singleton]
  unfold filled
  rw [prefix_splice hvk (by omega), htake]
  by_cases h1 : 1 < copyLen n v
  · have hv : v ≠ [] := by
      rintro rfl
      rw [hk] at h1
      exact absurd h1 (by decide)
    rw [if_pos h1, List.take_of_length_le (by omega)]
    exact iff_of_true rfl fun h => absurd h hv
  · have hv : v = [] := List.eq_nil_of_length_eq_zero (by omega)
    have hk1 : copyLen n v = 1 := by rw [hk, hv]; rfl
    rw [if_neg h1, hk1, hv]
    refine Iff.trans ?_ ⟨fun h _ => h, fun h => h rfl⟩
    exact @take_one_eq [0] block

/-- **The stringify functions respect the buffer** exactly where it is right for the text. -/
theorem stringifies_iff {call : Ptr → Int → M (Int × JdNodeError)} (hc : StringifyCall w.heap a v call)
    (hb : w.heap.get? b = some (.text block)) (hn : block.length = n) (hpos : 0 < n) :
    Stringifies call w b n v ↔ BufferRight n v block := by
  unfold Stringifies BufferRight
  rw [call_run hc]
  by_cases hfit : v.length < 2147483647
  swap
  · refine iff_of_false ?_ fun h => hfit h.1
    rintro ⟨err, w', block', hrun, -⟩
    exact fillBuffer_long hfit hpos hrun rfl
  rw [and_iff_right hfit, fillBuffer_run hb hn hpos hfit]
  by_cases hkn : copyLen n v < n
  swap
  · -- the text fits exactly: the NUL goes behind the buffer
    rw [if_neg hkn]
    refine iff_of_false (fun ⟨_, _, _, h, _⟩ => by cases h) ?_
    unfold copyLen at hkn
    split at hkn <;> omega
  rw [if_pos hkn]
  have hlen : (filled v block n).length = n := by
    have hcopied := @length_copied v block _ (copyLen_le n v).1 (by omega)
    unfold filled
    rw [length_splice (by rw [hcopied, hn]; exact hkn), hcopied, hn]
  refine Iff.trans (b := v.take (n - 1) ++ [0] <+: filled v block n) ⟨?_, fun h => ?_⟩ ?_
  · rintro ⟨err, w', block', hok, hw', -, hpre⟩
    have hheap : w.heap.put b (.text (filled v block n)) = w.heap.put b (.text block') := by
      cases hok
      exact congrArg World.heap hw'
    have hget := congrArg (Store.get? · b) hheap
    rw [Store.get?_put_self (Store.lt_size hb), Store.get?_put_self (Store.lt_size hb)] at hget
    cases hget
    exact hpre
  · exact ⟨_, _, _, rfl, rfl, hlen, h⟩
  · by_cases hle : n ≤ v.length
    · have hlong : ¬ v.length + 2 ≤ n := by omega
      rw [short_buffer hn hpos hle, and_iff_right hle, or_iff_left fun h => hlong h.1]
    · have hlong : v.length + 2 ≤ n := by
        unfold copyLen at hkn
        rw [if_neg hle] at hkn
        exact hkn
      rw [List.take_of_length_le (by omega), long_buffer hn hlong, or_iff_right fun h => hle h.1,
        and_iff_right hlong]

/-- A world with a node of type `JD_TRUE`, and a buffer of `n` bytes behind it. -/
def trueWorld (n : Nat) : World :=
  { input := [], ending := .eof, offset := 0, pe := ⟨0, none⟩,
    heap := (Store.empty.alloc (.node { newNode with type := .jdTrue })).alloc
      (.text (List.replicate n 120)),
    oracle := fun _ => true, mallocs := 0, stdout := [] }

theorem stringifies_true : Stringifies (jdNodeStringifyTrue (some 0)) (trueWorld 3) 1 3 (cs "true") := by
  have hlen : (cs "true").length = 4 := by decide
  refine (@stringifies_iff (trueWorld 3) 0 1 3 _ _ _ (.true rfl rfl rfl) rfl rfl (by decide)).2 ?_
  refine ⟨by omega, .inl ⟨by omega, fun h => ?_⟩⟩
  exact absurd h (by decide)

/-- A buffer of five bytes for `true`: the NUL is written behind it. -/
theorem true_overrun : ¬ Stringifies (jdNodeStringifyTrue (some 0)) (trueWorld 5) 1 5 (cs "true") := by
  rintro ⟨err, w', block', hrun, -⟩
  have hbad : jdNodeStringifyTrue (some 0) (some 1) 5 (trueWorld 5) = .error .badAccess := rfl
  rw [show ((5 : Nat) : Int) = 5 from rfl, hbad] at hrun
  cases hrun

end JsonDom
