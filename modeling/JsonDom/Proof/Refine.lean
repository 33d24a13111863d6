import JsonDom.Proof.Accounts
import JsonDom.Proof.Acts

/-!
# The parser refines the reader

Where its requests are granted, each function of the parser does on the file what the reader does with
the same fuel, and leaves in memory the new tree and nothing else changed, with accounts of the blocks
(`Agree`, by induction on the fuel; `parseFile_run`).
-/

namespace JsonDom

open Lib OTree

variable {w w' : World} {c : Option Parent}

/-! ## Outcomes -/

/-- What the caller's `*end_signal` holds behind a value that `e` ended. -/
def signal (es : Option UInt8) : Option UInt8 → Option UInt8
  | none => es
  | some e => es.map fun _ => e

/-- The same behind a property. -/
def propertySignal (es e : Option UInt8) : Option UInt8 := es.map fun _ => e.getD 0

/-- The new tree `t` with what is known of it, and no other change in memory. -/
structure Made (w w' : World) (c : Option Parent) (t : OTree) (s : Src) : Prop where
  src : w'.toSrc = s
  oracle : w'.oracle = w.oracle
  stdout : w'.stdout = w.stdout
  grown : Grown w.heap w'.heap c t

/-- What a function that reads a value or a member with the requests `rs` does, given what the reader
does. `sig e` is the end signal behind what `e` ended; `Q a h t`: in the memory `h` the tree `t` stands for
the result `a`. -/
def Yields {α : Type} (w : World) (c : Option Parent) (rs : List Request)
    (sig : Option UInt8 → Option UInt8) (Q : α → Store Cell → OTree → Prop)
    (res : Except Halt ((Bool × Ptr × Option UInt8) × World)) : Out (α × Option UInt8) → Prop
  | .timeout => res = .error .timeout
  | .fail _ s => ∃ p es' w', res = .ok ((false, p, es'), w') ∧ Kept w.heap.size w w' ∧ w'.toSrc = s ∧
      Spent w w' rs 0 0
  | .ok (a, e) s => ∃ t w', res = .ok ((true, some t.addr, sig e), w') ∧ Made w w' c t s ∧
      Q a w'.heap t ∧ Spent w w' rs 0 (held w'.heap t)

/-- The tree of a value. -/
def IsValue (J : Json) (h : Store Cell) (t : OTree) : Prop := Denotes h t J

theorem fail_eq {α : Type} {k : Check} {m : String} (hk : k.message = some m) (s : Src) :
    (s.fail k : Out α) = .fail k (s.report m) := by
  rw [Src.fail, hk]

/-! ## Scalars -/

theorem takeWhile_text (s : Bytes) : (s ++ [0]).takeWhile (· ≠ 0) = s.takeWhile (· ≠ 0) := by
  induction s with
  | nil => rfl
  | cons b s ih =>
    by_cases hb : b = 0
    · simp [hb]
    · simpa [hb] using ih

/-- A detached node: a new one with a type and a payload. -/
def scalarNode (type : JdType) (payload : Ptr) : JdNode := { newNode with type, payload }

/-- The node `r` of a scalar, as the converters leave it; its payload is not below `lo`. -/
structure Leaf (lo : Nat) (h h' : Store Cell) (r : Addr) (type : JdType) (text : Option Bytes) :
    Prop where
  size : h.size ≤ h'.size
  frame : ∀ x < h.size, x ≠ r → h'.get? x = h.get? x
  node : ∃ payload, h'.get? r = some (.node (scalarNode type payload)) ∧
    match text with
    | none => payload = none
    | some s => ∃ q, payload = some q ∧ lo ≤ q ∧ h'.get? q = some (.text (s ++ [0]))

variable {lo : Nat} {r : Addr}

/-- The blocks of such a node. -/
theorem Leaf.held {h h' : Store Cell} {type : JdType} {text : Option Bytes} (hl : Leaf lo h h' r type text) :
    held h' (.node r []) = if text.isSome then 2 else 1 := by
  obtain ⟨payload, hn, htext⟩ := hl.node
  rw [held_leaf hn]
  cases text with
  | none =>
    rw [htext]
    rfl
  | some s =>
    obtain ⟨q, rfl, -⟩ := htext
    rfl

theorem leaf_plain (hn : w.heap.get? r = some (.node newNode)) (type : JdType) :
    ∃ w', jdNodeSetPlain (some r) type w = .ok (true, w') ∧ SameBut w w' ∧
      Leaf lo w.heap w'.heap r type none ∧ Spent w w' [] 1 1 := by
  refine ⟨_, setPlain_run hn rfl type, ⟨rfl, rfl, rfl⟩, ⟨Nat.le_of_eq (Store.size_put _ _ _).symm,
    fun x _ hx => Store.get?_put_ne hx, none, ?_, rfl⟩, .of_live rfl (Store.live_put hn _)⟩
  exact Store.get?_put_self (Store.lt_size hn)

theorem leaf_string {q : Addr} {text : Bytes} (hn : w.heap.get? r = some (.node newNode))
    (hq : w.heap.get? q = some (.text (text ++ [0]))) (hlo : lo ≤ q) :
    ∃ w', jdNodeTakeString (some r) (some q) w = .ok (true, w') ∧ SameBut w w' ∧
      Leaf lo w.heap w'.heap r .jdString (some text) ∧ Spent w w' [] 2 2 := by
  have hqr : q ≠ r := by
    rintro rfl
    rw [hn] at hq
    cases hq
  refine ⟨_, takeString_run hn rfl (some q), ⟨rfl, rfl, rfl⟩, ⟨Nat.le_of_eq (Store.size_put _ _ _).symm,
    fun x _ hx => Store.get?_put_ne hx, some q, ?_, q, rfl, hlo, (Store.get?_put_ne hqr).trans hq⟩,
    .of_live rfl (Store.live_put hn _)⟩
  exact Store.get?_put_self (Store.lt_size hn)

theorem leaf_number (hn : w.heap.get? r = some (.node newNode)) (ho : w.oracle w.mallocs = true)
    (hlo : lo ≤ w.heap.size) (value : Bytes) (type : JdType) :
    ∃ w', jdNodeSetNumber (some r) value type w = .ok (true, w') ∧ SameBut w w' ∧
      Leaf lo w.heap w'.heap r type (some value) ∧ Spent w w' [.number] 1 2 := by
  have hr := Store.lt_size hn
  have hr' : r < (w.heap.alloc (.text (value ++ [0]))).size := by
    rw [Store.size_alloc]
    exact Nat.lt_succ_of_lt hr
  have hn' : (w.heap.alloc (.text (value ++ [0]))).get? r = some (.node newNode) :=
    (Store.get?_alloc_lt hr).trans hn
  refine ⟨_, setNumber_run hn rfl ho value type, ⟨rfl, rfl, rfl⟩, ⟨?_, fun x hx hne => ?_,
    some w.heap.size, Store.get?_put_self hr', w.heap.size, rfl, hlo, ?_⟩, .one rfl rfl ?_⟩
  · rw [Store.size_put, Store.size_alloc]
    exact Nat.le_succ _
  · exact (Store.get?_put_ne hne).trans (Store.get?_alloc_lt hx)
  · exact (Store.get?_put_ne (Nat.ne_of_gt hr)).trans (Store.get?_alloc_self _ _)
  · rw [Store.live_put hn', Store.card_live_alloc]

/-- The requests made for a value, where it is one. -/
def copiesOf : Except Check Json → List Request
  | .ok J => Reader.copyRequests J
  | .error _ => []

/-- The value of an unquoted lexeme. -/
theorem setUnquoted_run {q : Addr} {block str : Bytes} (hg : w.Grants (copiesOf (Reader.unquoted str)))
    (hlo : lo ≤ w.heap.size)
    (hn : w.heap.get? r = some (.node newNode)) (hq : w.heap.get? q = some (.text block))
    (h0 : 0 ∈ block) (hstr : block.takeWhile (· ≠ 0) = str) :
    match Reader.unquoted str with
    | .ok J => ¬ J.IsCollection ∧ ∃ w', setUnquoted (some r) (some q) w = .ok (true, w') ∧ SameBut w w' ∧
        Leaf lo w.heap w'.heap r J.type J.text ∧
        Spent w w' (Reader.copyRequests J) 1 (held w'.heap (.node r []))
    | .error k => ∃ m, k.message = some m ∧ setUnquoted (some r) (some q) w =
        .ok (false, { w with toSrc := w.toSrc.report m }) := by
  have hget := getString_run w hq h0
  rw [hstr] at hget
  have hrun : ∀ {f : Bytes → M Bool}, (getString (some q) >>= f) w = f str w := M.bind_ok hget
  unfold setUnquoted
  unfold Reader.unquoted at hg ⊢
  rw [hrun]
  by_cases h1 : str = cs "null"
  · obtain ⟨w', hset, hs, hl, hsp⟩ := @leaf_plain w lo r hn .jdNull
    rw [if_pos h1, if_pos h1]
    exact ⟨id, w', M.bind_ok hset, hs, hl, hl.held ▸ hsp⟩
  by_cases h2 : str = cs "true"
  · obtain ⟨w', hset, hs, hl, hsp⟩ := @leaf_plain w lo r hn .jdTrue
    rw [if_neg h1, if_pos h2, if_neg h1, if_pos h2]
    exact ⟨id, w', M.bind_ok hset, hs, hl, hl.held ▸ hsp⟩
  by_cases h3 : str = cs "false"
  · obtain ⟨w', hset, hs, hl, hsp⟩ := @leaf_plain w lo r hn .jdFalse
    rw [if_neg h1, if_neg h2, if_pos h3, if_neg h1, if_neg h2, if_pos h3]
    exact ⟨id, w', M.bind_ok hset, hs, hl, hl.held ▸ hsp⟩
  rw [if_neg h1, if_neg h2, if_neg h3] at hg ⊢
  rw [if_neg h1, if_neg h2, if_neg h3]
  by_cases h4 : strchr (cs "0123456789.-+") (charAt str) = true
  · rw [if_pos h4] at hg
    rw [if_pos h4, if_pos h4]
    by_cases h5 : (isJsonNumber str).1 = true
    · rw [if_pos h5] at hg
      rw [if_pos h5, if_pos h5]
      by_cases h6 : (isJsonNumber str).2 = true
      · rw [if_pos h6] at hg
        obtain ⟨w', hset, hs, hl, hsp⟩ := leaf_number hn (hg 0 Nat.one_pos) hlo str .jdFloat
        rw [if_pos h6, if_pos h6]
        exact ⟨id, w', (M.bind_ok hset).trans rfl, hs, hl, hl.held ▸ hsp⟩
      · rw [if_neg h6] at hg
        obtain ⟨w', hset, hs, hl, hsp⟩ := leaf_number hn (hg 0 Nat.one_pos) hlo str .jdInteger
        rw [if_neg h6, if_neg h6]
        exact ⟨id, w', (M.bind_ok hset).trans rfl, hs, hl, hl.held ▸ hsp⟩
    · rw [if_neg h5, if_neg h5]
      exact ⟨_, rfl, M.bind_ok (report_run _ w)⟩
  · rw [if_neg h4, if_neg h4]
    exact ⟨_, rfl, M.bind_ok (report_run _ w)⟩

/-- A new node that was set is a detached tree. -/
theorem Leaf.grown {h0 h h1 h2 : Store Cell} {type : JdType} {text : Option Bytes}
    (hsize : h0.size ≤ h.size) (hframe : ∀ x < h0.size, h.get? x = h0.get? x)
    (hh1 : h1 = h.alloc (.node newNode)) (hl : Leaf h0.size h1 h2 h.size type text) :
    Grown h0 h2 none (.node h.size []) := by
  obtain ⟨payload, hn, htext⟩ := hl.node
  have hsize1 : h1.size = h.size + 1 := by rw [hh1, Store.size_alloc]
  have hframe2 : ∀ x < h0.size, h2.get? x = h0.get? x := fun x hx => by
    have hxh : x < h.size := Nat.lt_of_lt_of_le hx hsize
    rw [hl.frame x (by omega) (Nat.ne_of_lt hxh), hh1, Store.get?_alloc_lt hxh, hframe x hx]
  refine .leaf (by have := hl.size; omega) hframe2 hsize hn rfl fun q hq => ?_
  have hq : payload = some q := hq
  cases text with
  | none =>
    rw [htext] at hq
    cases hq
  | some s =>
    obtain ⟨q', hq', hlo, hget⟩ := htext
    obtain rfl : q' = q := Option.some.inj (hq'.symm.trans hq)
    exact ⟨hlo, _, hget⟩

theorem Leaf.content {h h' : Store Cell} {type : JdType} {text : Option Bytes}
    (hl : Leaf lo h h' r type text) : Content h' r type text := by
  obtain ⟨payload, hn, htext⟩ := hl.node
  refine ⟨_, hn, rfl, ?_⟩
  cases text with
  | none => exact htext
  | some s =>
    obtain ⟨q, hq, -, hget⟩ := htext
    exact ⟨q, hq, hget⟩

/-- **A scalar's node is adopted.** `w1` is the world behind the lexeme, `w2` that with a new node and
`w3` that with the node set. -/
theorem adopt_scalar {w1 w2 w3 : World} {J : Json} (hc : Stands w.heap c)
    (hk : Kept w.heap.size w w1) (hs2 : SameBut w1 w2) (hheap2 : w2.heap = w1.heap.alloc (.node newNode))
    (hs3 : SameBut w2 w3) (hJ : ¬ J.IsCollection)
    (hl : Leaf w.heap.size w2.heap w3.heap w1.heap.size J.type J.text) :
    ∃ w', (∀ {β : Type} (k : Unit → M β), (if (Parent.ptr c).isSome = true then do
          let u ← jdNodeAdopt (some w1.heap.size) (Parent.ptr c) none
          k u
        else k ()) w3 = k () w') ∧
      Made w w' c (.node w1.heap.size []) w1.toSrc ∧ IsValue J w'.heap (.node w1.heap.size []) ∧
      Spent w3 w' [] (held w3.heap (.node w1.heap.size [])) (held w'.heap (.node w1.heap.size [])) := by
  have hg3 := hl.grown hk.size hk.frame hheap2
  obtain ⟨h', hrun, hg, hst, hlive⟩ := attach hc hg3
  exact ⟨{ w3 with heap := h' }, fun k => hrun k, ⟨(hs2.trans hs3).src,
    (hs2.trans hs3).oracle.trans hk.oracle, (hs2.trans hs3).stdout.trans hk.stdout, hg⟩,
    .scalar hJ (hst.content hl.content), (hst.held hg3.hangs).symm ▸ .of_live rfl hlive⟩

/-- Creating a detached node. -/
theorem create_detached {rq : Request} {n : Nat} (ho : w.oracle w.mallocs = true) (hrq : rq.leaked = false) :
    ∃ w1, jdNodeCreate none none w = .ok (some w.heap.size, w1) ∧
    SameBut w w1 ∧ w1.heap = w.heap.alloc (.node newNode) ∧
    w1.heap.get? w.heap.size = some (.node newNode) ∧ Spent w w1 [rq] n (n + 1) :=
  ⟨_, create_run ho, ⟨rfl, rfl, rfl⟩, rfl, Store.get?_alloc_self _ _,
    .one hrq rfl (Store.card_live_alloc _ _)⟩

/-- **Destroying a new tree** leaves what was there before it. -/
theorem discard {w0 : World} {t : OTree} (hg : Grown w0.heap w.heap none t) (ho : w.oracle = w0.oracle)
    (hout : w.stdout = w0.stdout) :
    ∃ w', jdNodeDestroy (some t.addr) w = .ok (none, w') ∧ Kept w0.heap.size w0 w' ∧
      w'.toSrc = w.toSrc ∧ Spent w w' [] (held w.heap t) 0 := by
  obtain ⟨h', hrun, hrel⟩ := destroy_tree hg.hangs hg.owned
  refine ⟨{ w with heap := h' }, hrun, ⟨?_, fun x hx => ?_, ho, hout⟩, rfl, hrel.spent hg.owned hg.hangs⟩
  · exact Nat.le_trans hg.size (Nat.le_of_eq hrel.size.symm)
  · rw [hrel.get, if_neg fun hm => absurd (hg.fresh x hm) (Nat.not_le_of_lt hx), hg.frame x hx id]

/-- A scalar in quotes, from behind the first one. -/
theorem parseQuoted_run {es : Option UInt8} (hg : w.Grants (Reader.scalarRequests (ch '"') w.toSrc))
    (hc : Stands w.heap c) :
    Yields w c (Reader.scalarRequests (ch '"') w.toSrc) (signal es) IsValue
      (parseScalar (Parent.ptr c) (ch '"') es w)
      ((Reader.quoted w.toSrc).bind fun t s => .ok (.str t, some (ch '"')) s) := by
  obtain ⟨⟨t, e⟩, s', hl⟩ : ∃ r s', w.toSrc.lex endCheckForQuoted = (r, s') := ⟨_, _, rfl⟩
  unfold Reader.scalarRequests at hg ⊢
  rw [if_pos rfl] at hg ⊢
  unfold Reader.quoted at hg ⊢
  rw [hl] at hg ⊢
  unfold parseScalar
  cases e with
  | none =>
    obtain ⟨w1, hk, hm, hrun, hsrc, hnone⟩ := readQuoted_run hl hg
    rw [M.bind_ok hrun]
    exact ⟨none, es, w1, rfl, hk, hsrc, .unended hk hm hnone⟩
  | some e =>
    obtain ⟨w1, hk, hm, a, hrun, hsrc, hnew⟩ := readQuoted_run hl hg.left
    obtain ⟨hlo, htext, -⟩ := id hnew
    obtain rfl : e = ch '"' := by simpa [endCheckForQuoted] using lex_stop (lexSrc_eq hl).1
    obtain ⟨w2, hrun2, hs2, hheap2, hn2, hsp2⟩ :=
      @create_detached w1 .scalar 1 (hg.right hk.oracle hm).head rfl
    have htext2 : w2.heap.get? a = some (.text (t ++ [0])) := by
      rw [hheap2]
      exact (Store.get?_alloc_lt (Store.lt_size htext)).trans htext
    obtain ⟨w3, hrun3, hs3, hleaf, hsp3⟩ := leaf_string hn2 htext2 hlo
    obtain ⟨w4, hrun4, hmade, hval, hsp4⟩ :=
      @adopt_scalar w c w1 w2 w3 (.str t) hc hk hs2 hheap2 hs3 id hleaf
    rw [hleaf.held] at hsp4
    refine ⟨_, w4, ?_, hsrc ▸ hmade, hval, (((Spent.quoted hk hm hnew).trans hsp2).quiet hsp3).quiet hsp4⟩
    rw [M.bind_ok hrun]
    dsimp only
    rw [if_pos rfl, M.bind_ok hrun2, if_pos (by rfl), if_pos rfl]
    dsimp only [stealReadString]
    rw [M.bind_ok hrun3, M.bind_ok (M.pure_run _ _), if_pos rfl]
    exact hrun4 _

theorem scalar_bare {chr : UInt8} {s s' : Src} {t : Bytes} {e : Option UInt8} (hq : chr ≠ ch '"')
    (hl : s.lex endCheckForUnquoted = ((t, e), s')) :
    (∀ J, Reader.unquoted ((chr :: t).takeWhile (· ≠ 0)) = .ok J →
      Reader.scalar chr s = .ok (J, e.getD 0) s') ∧
    ∀ k, Reader.unquoted ((chr :: t).takeWhile (· ≠ 0)) = .error k → Reader.scalar chr s = s'.fail k := by
  constructor <;> intro x hx <;> simp only [Reader.scalar, if_neg hq, hl, hx]

/-- One without quotes, from behind its first character. -/
theorem parseBare_run {chr : UInt8} {es : Option UInt8} (hq : chr ≠ ch '"')
    (hg : w.Grants (Reader.scalarRequests chr w.toSrc)) (hc : Stands w.heap c) :
    Yields w c (Reader.scalarRequests chr w.toSrc) (signal es) IsValue (parseScalar (Parent.ptr c) chr es w)
      ((Reader.scalar chr w.toSrc).bind fun p s => .ok (p.1, some p.2) s) := by
  obtain ⟨⟨t, e⟩, s', hl⟩ : ∃ r s', w.toSrc.lex endCheckForUnquoted = (r, s') := ⟨_, _, rfl⟩
  obtain ⟨str, hstr⟩ : ∃ str, (chr :: t).takeWhile (· ≠ 0) = str := ⟨_, rfl⟩
  obtain ⟨hok, herror⟩ := scalar_bare hq hl
  rw [hstr] at hok herror
  have hrequests : Reader.scalarRequests chr w.toSrc =
      Reader.bareRequests w.toSrc ++ .scalar :: copiesOf (Reader.unquoted str) := by
    unfold Reader.scalarRequests
    rw [if_neg hq]
    cases hu : Reader.unquoted str with
    | ok J =>
      rw [hok J hu]
      rfl
    | error k =>
      rw [herror k hu]
      rfl
  rw [hrequests] at hg ⊢
  obtain ⟨w1, a, hk, hrun, hsrc, hnew, hm⟩ := readUnquoted_run hq hl hg.left
  obtain ⟨hlo, htext, -⟩ := id hnew
  have hg1 := hg.right hk.oracle hm
  obtain ⟨w2, hrun2, hs2, hheap2, hn2, hsp2⟩ := @create_detached w1 .scalar 0 hg1.head rfl
  have htext2 : w2.heap.get? a = some (.text (chr :: t ++ [0])) := by
    rw [hheap2]
    exact (Store.get?_alloc_lt (Store.lt_size htext)).trans htext
  have hlo2 : w.heap.size ≤ w2.heap.size := by
    have := hk.size
    rw [hheap2, Store.size_alloc]
    omega
  have hset := setUnquoted_run (hg1.tail hs2.oracle hsp2.mallocs) hlo2 hn2
    htext2 (by simp) ((takeWhile_text _).trans hstr)
  have hsp := (Spent.bare hk hm hnew).trans hsp2
  have hpre : ∀ b w3, setUnquoted (some w1.heap.size) (some a) w2 = .ok (b, w3) →
      parseScalar (Parent.ptr c) chr es w = (if b then do
        if (Parent.ptr c).isSome then jdNodeAdopt (some w1.heap.size) (Parent.ptr c) none
        pure (true, some w1.heap.size, es.map fun _ => e.getD 0)
      else do
        let _ ← jdNodeDestroy (some w1.heap.size)
        pure (false, none, es.map fun _ => e.getD 0) : M (Bool × Ptr × Option UInt8)) w3 := by
    intro b w3 hrun3
    unfold parseScalar
    rw [M.bind_ok hrun]
    dsimp only
    rw [if_pos rfl, M.bind_ok hrun2, if_pos (by rfl), if_neg hq, M.bind_ok hrun3]
  cases hu : Reader.unquoted str with
  | ok J =>
    rw [hu] at hset
    rw [hok J hu]
    obtain ⟨hJ, w3, hrun3, hs3, hleaf, hsp3⟩ := hset
    obtain ⟨w4, hrun4, hmade, hval, hsp4⟩ := adopt_scalar hc hk hs2 hheap2 hs3 hJ hleaf
    refine ⟨_, w4, ?_, hsrc ▸ hmade, hval, ?_⟩
    · rw [hpre _ _ hrun3, if_pos rfl]
      exact hrun4 _
    · have hall := (hsp.trans hsp3).quiet hsp4
      rwa [List.append_assoc] at hall
  | error k =>
    rw [hu] at hset
    obtain ⟨m, hm, hrun3⟩ := hset
    have hgrown : Grown w.heap w2.heap none (.node w1.heap.size []) := by
      refine .leaf hlo2 (fun x hx => ?_) hk.size hn2 rfl fun _ h => by cases h
      rw [hheap2, Store.get?_alloc_lt (Nat.lt_of_lt_of_le hx hk.size), hk.frame x hx]
    obtain ⟨w4, hrun4, hk4, hsrc4, hsp4⟩ := @discard { w2 with toSrc := w2.toSrc.report m } w _ hgrown
      (hs2.oracle.trans hk.oracle) (hs2.stdout.trans hk.stdout)
    have hheld : held w2.heap (.node w1.heap.size []) = 1 := held_leaf hn2
    rw [hheld] at hsp4
    rw [herror k hu, fail_eq hm]
    refine ⟨none, es.map fun _ => e.getD 0, w4, ?_, hk4, by rw [hsrc4, ← hsrc, ← hs2.src],
      hsp.quiet ⟨hsp4.mallocs, hsp4.live⟩⟩
    rw [hpre _ _ hrun3, if_neg (by simp)]
    exact M.bind_ok hrun4

theorem parseScalar_run {chr : UInt8} {es : Option UInt8} (hg : w.Grants (Reader.scalarRequests chr w.toSrc))
    (hc : Stands w.heap c) :
    Yields w c (Reader.scalarRequests chr w.toSrc) (signal es) IsValue (parseScalar (Parent.ptr c) chr es w)
      ((Reader.scalar chr w.toSrc).bind fun p s => .ok (p.1, some p.2) s) := by
  by_cases hq : chr = ch '"'
  · subst hq
    have hscalar : ((Reader.scalar (ch '"') w.toSrc).bind fun p s => .ok (p.1, some p.2) s) =
        (Reader.quoted w.toSrc).bind fun t s => .ok (.str t, some (ch '"')) s := by
      unfold Reader.scalar
      rw [if_pos rfl]
      cases Reader.quoted w.toSrc <;> rfl
    rw [hscalar]
    exact parseQuoted_run hg hc
  · exact parseBare_run hq hg hc

/-! ## Collections under construction -/

/-- The tools for a kind of collection. -/
def Kind.tools : Kind → CollectionTools
  | .arr => .arrayTools
  | .obj => .objectTools

theorem isEndChar_eq (k : Kind) (chr : UInt8) : k.tools.isEndChar chr = (chr == k.closeChar) := by
  cases k <;> rfl

/-- One round of the loop of `parse_collection`. -/
theorem loop_one {k : Kind} {fuel : Nat} {needs : Bool} {a : Addr} {n : JdNode} {chr : UInt8} {s : Src}
    (hr : w.toSrc.read = (.one chr, s)) (hn : w.heap.get? a = some (.node n)) :
    parseCollection.loop (fuel + 1) k.tools (some a) needs w =
      (loopAct k n.firstChild.isSome needs chr).elim (fun needs => parseCollection.loop fuel k.tools (some a) needs)
        (parseCollection.member fuel k.tools (some a) chr) (pure (.done true))
        (fun c => do
          reportParseError (c.message.getD "")
          pure .earlyExit) { w with toSrc := s } := by
  have hnode : ∀ {β : Type} (f : JdNode → M β), (getNode (some a) >>= f) { w with toSrc := s } =
      f n { w with toSrc := s } := fun f => M.bind_ok (getNode_run _ hn)
  rw [loopAct_elim, parseCollection.loop, M.bind_ok (read_run w), hr]
  dsimp only
  rw [isEndChar_eq]
  by_cases h1 : isspace chr = true
  · rw [if_pos h1, if_pos h1]
  rw [if_neg h1, if_neg h1]
  cases needs with
  | true =>
    rw [if_pos rfl, if_pos rfl]
    split <;> rfl
  | false =>
    simp only [Bool.false_eq_true, if_false, beq_iff_eq]
    by_cases h2 : chr = k.closeChar
    · rw [if_pos h2, if_pos h2]
    rw [if_neg h2, if_neg h2]
    by_cases h3 : (decide (chr = ch ']') || decide (chr = ch '}')) = true
    · rw [if_pos h3, if_pos h3]
      rfl
    rw [if_neg h3, if_neg h3, hnode]
    cases n.firstChild <;> simp <;> split <;> rfl

/-- The tree of a member. -/
def Stored (h : Store Cell) (k : Kind) (x : Item) : Prop := Denotes h x.tree x.value ∧ x.Labelled h k

theorem Stays.stored {h h' : Store Cell} (hs : Stays h h') {k : Kind} {x : Item} (hx : Stored h k x) :
    Stored h' k x :=
  ⟨hs.denotes hx.1, hs.labelled hx.2⟩

def IsMember (k : Kind) (p : Bytes × Json) (h : Store Cell) (t : OTree) : Prop :=
  ∃ x : Item, x.pair = p ∧ x.node k = t ∧ Stored h k x

/-- The collection at `a` is new since `w0` and has the members `xs`. -/
structure Building (w0 w : World) (k : Kind) (a : Addr) (xs : List Item) : Prop where
  oracle : w.oracle = w0.oracle
  stdout : w.stdout = w0.stdout
  grown : Grown w0.heap w.heap none (.node a (xs.map (·.node k)))
  stored : ∀ x ∈ xs, Stored w.heap k x
  content : Content w.heap a k.type none

theorem Grown.kept {h h' h'' : Store Cell} {t : OTree} (hg : Grown h h' none t)
    (hsize : h'.size ≤ h''.size) (hf : ∀ x < h'.size, h''.get? x = h'.get? x) : Grown h h'' none t := by
  have hlt := hg.owned.lt hg.hangs
  obtain ⟨hown, hblocks⟩ := hg.owned.frame fun x hx => hf x (hlt x hx)
  refine ⟨Nat.le_trans hg.size hsize, hg.stays.trans (.of_frame hf), fun x hx _ => ?_, ?_, hown,
    by rw [hblocks]; exact hg.fresh⟩
  · rw [hf x (Nat.lt_of_lt_of_le hx hg.size), hg.frame x hx id]
  · exact linked_congr (fun x hx => links_congr (hf x (hlt x (mem_blocks_left hx)))) hg.hangs

namespace Building

variable {w0 : World} {k : Kind} {a : Addr} {xs : List Item}

theorem kept (hb : Building w0 w k a xs) (hk : Kept w.heap.size w w') : Building w0 w' k a xs where
  oracle := hk.oracle.trans hb.oracle
  stdout := hk.stdout.trans hb.stdout
  grown := hb.grown.kept hk.size hk.frame
  stored x hx := (Stays.of_frame hk.frame).stored (hb.stored x hx)
  content := (Stays.of_frame hk.frame).content hb.content

theorem src (hb : Building w0 w k a xs) (s : Src) : Building w0 { w with toSrc := s } k a xs :=
  hb.kept (.src _ w s)

theorem stands (hb : Building w0 w k a xs) :
    Stands w.heap (some (.detached a (xs.map (·.node k)))) :=
  ⟨hb.grown.hangs, hb.grown.owned.nodup⟩

/-- **A member is added.** -/
theorem push (hb : Building w0 w k a xs) {x : Item} {s : Src}
    (hm : Made w w' (some (.detached a (xs.map (·.node k)))) (x.node k) s) (hx : Stored w'.heap k x) :
    Building w0 w' k a (xs ++ [x]) where
  oracle := hm.oracle.trans hb.oracle
  stdout := hm.stdout.trans hb.stdout
  grown := by
    rw [List.map_append]
    exact hb.grown.push hm.grown
  stored y hy := by
    rcases List.mem_append.1 hy with hy | hy
    · exact hm.grown.stays.stored (hb.stored y hy)
    · exact List.mem_singleton.1 hy ▸ hx
  content := hm.grown.stays.content hb.content

/-- The node of the collection says whether there are members. -/
theorem firstChild (hb : Building w0 w k a xs) :
    ∃ n, w.heap.get? a = some (.node n) ∧ n.firstChild.isSome = decide (xs.map Item.pair ≠ []) := by
  obtain ⟨n, hn, -, -, -, hfirst, -⟩ := linked_root hb.grown.hangs
  refine ⟨n, hn, ?_⟩
  rw [hfirst]
  cases xs <;> rfl

theorem ample (hb : Building w0 w k a xs) (hw : w0.Ample) : w.Ample := fun n => by
  rw [hb.oracle]
  exact hw n

/-- The blocks of the collection with another member. -/
theorem spent (hb : Building w0 w k a xs) {rs : List Request} {x : Item} {s : Src}
    (hm : Made w w' (some (.detached a (xs.map (·.node k)))) (x.node k) s)
    (hsp : Spent w w' rs 0 (held w'.heap (x.node k))) :
    Spent w w' rs (held w.heap (.node a (xs.map (·.node k))))
      (held w'.heap (.node a ((xs ++ [x]).map (·.node k)))) := by
  rw [List.map_append, List.map_singleton, held_append, hm.grown.stays.held hb.grown.hangs,
    ← Nat.zero_add (held w.heap _), Nat.add_comm _ (held w'.heap (x.node k))]
  convert hsp.frame (held w.heap (.node a (xs.map (·.node k)))) using 1
  omega

end Building

/-! ## One step of the fuel -/

theorem Spent.src {rs : List Request} {m n : Nat} {s : Src} (h : Spent { w with toSrc := s } w' rs m n) :
    Spent w w' rs m n :=
  ⟨h.mallocs, h.live⟩

theorem Yields.src {α : Type} {rs : List Request} {sig : Option UInt8 → Option UInt8}
    {Q : α → Store Cell → OTree → Prop} {res : Except Halt ((Bool × Ptr × Option UInt8) × World)}
    {o : Out (α × Option UInt8)} {s : Src} (h : Yields { w with toSrc := s } c rs sig Q res o) :
    Yields w c rs sig Q res o := by
  match o, h with
  | .timeout, h => exact h
  | .fail _ _, ⟨p, es, w', hrun, hk, hsrc, hsp⟩ =>
    exact ⟨p, es, w', hrun, ⟨hk.size, hk.frame, hk.oracle, hk.stdout⟩, hsrc, hsp.src⟩
  | .ok _ _, ⟨t, w', hrun, hm, hq, hsp⟩ =>
    exact ⟨t, w', hrun, ⟨hm.src, hm.oracle, hm.stdout, hm.grown⟩, hq, hsp.src⟩

theorem skipSpace_run {fuel : Nat} {chr : UInt8} {w : World} :
    match Reader.blanks fuel chr w.toSrc with
    | .timeout => skipSpace fuel chr w = .error .timeout
    | .fail _ s => skipSpace fuel chr w = .ok (none, { w with toSrc := s })
    | .ok b s => skipSpace fuel chr w = .ok (some b, { w with toSrc := s }) := by
  induction fuel generalizing chr w with
  | zero => exact rfl
  | succ fuel ih =>
    unfold Reader.blanks skipSpace
    by_cases hs : isspace chr = true
    · rw [if_pos hs, if_pos hs, M.bind_ok (read_run w)]
      obtain ⟨r, s, hr⟩ : ∃ r s, w.toSrc.read = (r, s) := ⟨_, _, rfl⟩
      rw [hr]
      cases r with
      | one b => exact @ih b { w with toSrc := s }
      | zero => exact rfl
      | minusOne => exact @ih chr { w with toSrc := s }
    · rw [if_neg hs, if_neg hs]
      exact rfl

/-- What the loop of `parse_collection` does from `w` on, given what the reader does. -/
def LoopYields (w0 w : World) (k : Kind) (a : Addr) (own : Nat) (rs : List Request)
    (res : Except Halt (LoopExit × World)) : Out (List (Bytes × Json)) → Prop
  | .timeout => res = .error .timeout
  | .fail _ s => ∃ exit w' xs, res = .ok (exit, w') ∧ Building w0 w' k a xs ∧
      Spent w w' rs own (held w'.heap (.node a (xs.map (·.node k)))) ∧
      (exit = .earlyExit ∧ w'.toSrc = s ∨
        exit = .done false ∧ w'.toSrc.report "unterminated collection" = s)
  | .ok ms s => ∃ w' xs, res = .ok (.done true, w') ∧ Building w0 w' k a xs ∧
      Spent w w' rs own (held w'.heap (.node a (xs.map (·.node k)))) ∧ xs.map Item.pair = ms ∧ w'.toSrc = s

theorem LoopYields.src {w0 : World} {k : Kind} {a : Addr} {own : Nat} {rs : List Request}
    {res : Except Halt (LoopExit × World)} {o : Out (List (Bytes × Json))} {s : Src}
    (h : LoopYields w0 { w with toSrc := s } k a own rs res o) : LoopYields w0 w k a own rs res o := by
  match o, h with
  | .timeout, h => exact h
  | .fail _ _, ⟨exit, w', xs, hrun, hb, hsp, hexit⟩ => exact ⟨exit, w', xs, hrun, hb, hsp.src, hexit⟩
  | .ok _ _, ⟨w', xs, hrun, hb, hsp, hms, hsrc⟩ => exact ⟨w', xs, hrun, hb, hsp.src, hms, hsrc⟩

theorem LoopYields.after {w0 w1 : World} {k : Kind} {a : Addr} {m n : Nat} {rs rs' : List Request}
    {res : Except Halt (LoopExit × World)} {o : Out (List (Bytes × Json))}
    (h : LoopYields w0 w1 k a n rs' res o) (hsp : Spent w w1 rs m n) :
    LoopYields w0 w k a m (rs ++ rs') res o := by
  match o, h with
  | .timeout, h => exact h
  | .fail _ _, ⟨exit, w', xs, hrun, hb, hsp', hexit⟩ => exact ⟨exit, w', xs, hrun, hb, hsp.trans hsp', hexit⟩
  | .ok _ _, ⟨w', xs, hrun, hb, hsp', hms, hsrc⟩ => exact ⟨w', xs, hrun, hb, hsp.trans hsp', hms, hsrc⟩

/-- What `parse_collection` does, given what the reader does. -/
def CollectionYields (w : World) (c : Option Parent) (rs : List Request) (node : Ptr)
    (res : Except Halt ((Bool × Ptr) × World)) : Out Json → Prop
  | .timeout => res = .error .timeout
  | .fail _ s => ∃ w', res = .ok ((false, node), w') ∧ Kept w.heap.size w w' ∧ w'.toSrc = s ∧
      Spent w w' rs 0 0
  | .ok J s => ∃ t w', res = .ok ((true, some t.addr), w') ∧ Made w w' c t s ∧ IsValue J w'.heap t ∧
      Spent w w' rs 0 (held w'.heap t)

/-- What the loop of `Object_ReadMember` does from `w` on with the label in the block `q`. -/
def AfterLabelYields (w0 w : World) (c : Option Parent) (rs : List Request) (es : Option UInt8) (q : Addr)
    (label : Bytes) (res : Except Halt (((Bool × Ptr × Option UInt8) × Ptr) × World)) :
    Out (Json × Option UInt8) → Prop
  | .timeout => res = .error .timeout
  | .fail _ s => ∃ p es' w', res = .ok (((false, p, es'), some q), w') ∧ Kept w0.heap.size w0 w' ∧
      w'.heap.get? q = some (.text (label ++ [0])) ∧ w'.toSrc = s ∧ Spent w w' rs 1 1
  | .ok (J, e) s => ∃ t w', res = .ok (((true, some t.addr, propertySignal es e), none), w') ∧
      Made w0 w' c t s ∧ IsMember .obj (label, J) w'.heap t ∧ Spent w w' rs 1 (held w'.heap t)

theorem AfterLabelYields.src {w0 : World} {rs : List Request} {es : Option UInt8} {q : Addr} {label : Bytes}
    {res : Except Halt (((Bool × Ptr × Option UInt8) × Ptr) × World)} {o : Out (Json × Option UInt8)} {s : Src}
    (h : AfterLabelYields w0 { w with toSrc := s } c rs es q label res o) :
    AfterLabelYields w0 w c rs es q label res o := by
  match o, h with
  | .timeout, h => exact h
  | .fail _ _, ⟨p, es', w', hrun, hk, htext, hsrc, hsp⟩ => exact ⟨p, es', w', hrun, hk, htext, hsrc, hsp.src⟩
  | .ok _ _, ⟨t, w', hrun, hm, hv, hsp⟩ => exact ⟨t, w', hrun, hm, hv, hsp.src⟩

/-- The parser and the reader agree with this much fuel, where what is asked for is granted. -/
structure Agree (fuel : Nat) : Prop where
  value {w : World} {c : Option Parent} {es : Option UInt8} (node : Ptr) (chr : UInt8) :
    w.Grants (Reader.valueRequests fuel chr w.toSrc) → Stands w.heap c →
    Yields w c (Reader.valueRequests fuel chr w.toSrc) (signal es) IsValue
      (jParser fuel (Parent.ptr c) node chr es w) (Reader.value fuel chr w.toSrc)
  collection {w : World} {c : Option Parent} (k : Kind) (node : Ptr) :
    w.Grants (Reader.collectionRequests fuel k w.toSrc) → Stands w.heap c →
    CollectionYields w c (Reader.collectionRequests fuel k w.toSrc) node
      (parseCollection fuel (Parent.ptr c) k.tools node w) (Reader.collection fuel k w.toSrc)
  items {w0 w : World} {k : Kind} {a : Addr} {xs : List Item} (needs : Bool) :
    w.Grants (Reader.itemsRequests fuel k (xs.map Item.pair) needs w.toSrc) → Building w0 w k a xs →
    LoopYields w0 w k a (held w.heap (.node a (xs.map (·.node k))))
      (Reader.itemsRequests fuel k (xs.map Item.pair) needs w.toSrc)
      (parseCollection.loop fuel k.tools (some a) needs w)
      (Reader.items fuel k (xs.map Item.pair) needs w.toSrc)
  item {w0 w : World} {k : Kind} {a : Addr} {xs : List Item} (chr : UInt8) :
    w.Grants (Reader.itemRequests fuel k (xs.map Item.pair) chr w.toSrc) → Building w0 w k a xs →
    LoopYields w0 w k a (held w.heap (.node a (xs.map (·.node k))))
      (Reader.itemRequests fuel k (xs.map Item.pair) chr w.toSrc)
      (parseCollection.member fuel k.tools (some a) chr w)
      (Reader.item fuel k (xs.map Item.pair) chr w.toSrc)
  member {w : World} {c : Option Parent} (k : Kind) (node : Ptr) (chr : UInt8) :
    w.Grants (Reader.memberRequests fuel k chr w.toSrc) → Stands w.heap c →
    Yields w c (Reader.memberRequests fuel k chr w.toSrc) (propertySignal (some 0)) (IsMember k)
      (readMember fuel k.tools (Parent.ptr c) node chr (some 0) w) (Reader.member fuel k chr w.toSrc)
  property {w : World} {c : Option Parent} {es : Option UInt8} (node : Ptr) (chr : UInt8) :
    w.Grants (Reader.propertyRequests fuel chr w.toSrc) → Stands w.heap c →
    Yields w c (Reader.propertyRequests fuel chr w.toSrc) (propertySignal es) (IsMember .obj)
      (objectReadMember fuel (Parent.ptr c) node chr es w) (Reader.property fuel chr w.toSrc)
  afterLabel {w0 w : World} {c : Option Parent} {es : Option UInt8} {q : Addr} {label : Bytes}
    (node : Ptr) (past : Bool) : w.Grants (Reader.afterLabelRequests fuel past w.toSrc) →
    Stands w0.heap c → Kept w0.heap.size w0 w →
    w0.heap.size ≤ q → w.heap.get? q = some (.text (label ++ [0])) →
    AfterLabelYields w0 w c (Reader.afterLabelRequests fuel past w.toSrc) es q label
      (objectReadMember.loop fuel (Parent.ptr c) node es (some q) past w)
      (Reader.afterLabel fuel past w.toSrc)

theorem agree_zero : Agree 0 where
  value _ _ _ _ := rfl
  collection _ _ _ _ := rfl
  items _ _ _ := rfl
  item _ _ _ := rfl
  member k _ _ _ _ := by cases k <;> rfl
  property _ _ _ _ := rfl
  afterLabel _ _ _ _ _ _ _ := rfl

/-- `parse_collection` behind its loop. -/
def afterLoop (parent newNode node : Ptr) : LoopExit → M (Bool × Ptr)
  | .earlyExit => do
    let _ ← jdNodeDestroy newNode
    pure (false, node)
  | .done true => do
    if parent.isSome then jdNodeAdopt newNode parent none
    reportParseError "unterminated collection"
    pure (true, newNode)
  | .done false => do
    reportParseError "unterminated collection"
    let _ ← jdNodeDestroy newNode
    pure (false, node)

/-- `parse_collection` in front of its loop. -/
theorem collection_start (k : Kind) (node : Ptr) (fuel : Nat) (ho : w.oracle w.mallocs = true) :
    ∃ w2, SameBut w w2 ∧ Building w w2 k w.heap.size [] ∧
      Spent w w2 [.collection] 0 (held w2.heap (.node w.heap.size [])) ∧
      parseCollection (fuel + 1) (Parent.ptr c) k.tools node w =
        (parseCollection.loop fuel k.tools (some w.heap.size) false >>=
          afterLoop (Parent.ptr c) (some w.heap.size) node) w2 := by
  obtain ⟨w1, hrun1, hs1, hheap1, hn1, hsp1⟩ := @create_detached w .collection 0 ho rfl
  obtain ⟨w2, hrun2, hs2, hl2, hsp2⟩ := @leaf_plain w1 w.heap.size w.heap.size hn1 k.type
  have hcoerce : k.tools.coerceType (some w.heap.size) w1 = .ok (true, w2) := by
    cases k <;> exact hrun2
  have hs : SameBut w w2 := hs1.trans hs2
  refine ⟨w2, hs, ?_, ?_, ?_⟩
  · obtain ⟨_, hn2, rfl⟩ := hl2.node
    have hsize : w.heap.size ≤ w2.heap.size :=
      Nat.le_trans (by rw [hheap1, Store.size_alloc]; exact Nat.le_succ _) hl2.size
    refine ⟨hs.oracle, hs.stdout, .leaf hsize (fun x hx => ?_) (Nat.le_refl _) hn2 rfl (fun _ h => by cases h),
      fun x hx => absurd hx List.not_mem_nil, ⟨_, hn2, rfl, rfl⟩⟩
    have hx1 : x < w1.heap.size := by
      rw [hheap1, Store.size_alloc]
      exact Nat.lt_succ_of_lt hx
    rw [hl2.frame x hx1 (Nat.ne_of_lt hx), hheap1, Store.get?_alloc_lt hx]
  · rw [hl2.held]
    exact hsp1.quiet hsp2
  · unfold parseCollection
    rw [M.bind_ok hrun1, if_pos (by rfl), M.bind_ok hcoerce, if_pos rfl]
    rfl

/-- A collection that was read is adopted; the report is made all the same. -/
theorem afterLoop_run {w0 : World} {k : Kind} {a : Addr} {xs : List Item} (hc : Stands w0.heap c)
    (hb : Building w0 w k a xs) (node : Ptr) :
    ∃ w', afterLoop (Parent.ptr c) (some a) node (.done true) w = .ok ((true, some a), w') ∧
      Made w0 w' c (.node a (xs.map (·.node k))) (w.toSrc.report "unterminated collection") ∧
      Stays w.heap w'.heap ∧ Spent w w' [] (held w.heap (.node a (xs.map (·.node k))))
        (held w'.heap (.node a (xs.map (·.node k)))) := by
  obtain ⟨h', hrun, hg, hst, hlive⟩ := attach hc hb.grown
  refine ⟨{ w with heap := h', toSrc := w.toSrc.report "unterminated collection" }, ?_,
    ⟨rfl, hb.oracle, hb.stdout, hg⟩, hst, ?_⟩
  · exact hrun fun _ => do
      reportParseError "unterminated collection"
      pure (true, some a)
  · rw [hst.held hb.grown.hangs]
    exact .of_live rfl hlive

section Step

variable {fuel : Nat} (ih : Agree fuel)
include ih

theorem value_step {es : Option UInt8} (node : Ptr) (chr : UInt8)
    (hg : w.Grants (Reader.valueRequests (fuel + 1) chr w.toSrc)) (hc : Stands w.heap c) :
    Yields w c (Reader.valueRequests (fuel + 1) chr w.toSrc) (signal es) IsValue
      (jParser (fuel + 1) (Parent.ptr c) node chr es w) (Reader.value (fuel + 1) chr w.toSrc) := by
  obtain ⟨rs, hrs⟩ : ∃ rs, Reader.valueRequests (fuel + 1) chr w.toSrc = rs := ⟨_, rfl⟩
  rw [hrs] at hg ⊢
  unfold Reader.valueRequests at hrs
  unfold jParser Reader.value
  generalize (if chr ≠ 0 then chr else ch ' ') = b at hrs ⊢
  have hskip := @skipSpace_run fuel b w
  cases hb : Reader.blanks fuel b w.toSrc with
  | timeout =>
    rw [hb] at hskip
    exact M.bind_error hskip
  | fail k s =>
    rw [hb] at hskip hrs
    subst hrs
    exact ⟨node, es, { w with toSrc := s }, M.bind_ok hskip, .src _ w s, rfl, .of_live rfl rfl⟩
  | ok chr s =>
    rw [hb] at hskip hrs
    rw [M.bind_ok hskip, Out.bind_ok]
    dsimp only at hrs ⊢
    obtain ⟨w1, hw1⟩ : ∃ w1, w1 = { w with toSrc := s } := ⟨_, rfl⟩
    have hg' : w1.Grants rs := by rw [hw1]; exact hg
    have hc' : Stands w1.heap c := by rw [hw1]; exact hc
    have hsrc : w1.toSrc = s := by rw [hw1]
    have hcoll : ∀ k : Kind, Reader.collectionRequests fuel k s = rs → Yields w1 c rs (signal es) IsValue
        ((do
          let p ← parseCollection fuel (Parent.ptr c) k.tools none
          if p.1 then pure (true, p.2, es) else pure (false, node, es) :
            M (Bool × Ptr × Option UInt8)) w1)
        ((Reader.collection fuel k s).bind fun J s => .ok (J, none) s) := by
      intro k hrs
      have hrun := ih.collection k none (by rw [hsrc, hrs]; exact hg') hc'
      rw [hsrc, hrs] at hrun
      cases ho : Reader.collection fuel k s with
      | timeout =>
        rw [ho] at hrun
        exact M.bind_error hrun
      | fail k s =>
        rw [ho] at hrun
        obtain ⟨w2, hrun, hk, hsrc, hsp⟩ := hrun
        exact ⟨node, es, w2, M.bind_ok hrun, hk, hsrc, hsp⟩
      | ok J s =>
        rw [ho] at hrun
        obtain ⟨t, w2, hrun, hm, hv, hsp⟩ := hrun
        exact ⟨t, w2, M.bind_ok hrun, hm, hv, hsp⟩
    refine @Yields.src w c _ _ _ _ _ _ s ?_
    rw [← hw1]
    by_cases h1 : chr = ch '['
    · rw [if_pos h1] at hrs
      rw [if_pos h1, if_pos h1]
      exact hcoll .arr hrs
    rw [if_neg h1] at hrs
    by_cases h2 : chr = ch '{'
    · rw [if_pos h2] at hrs
      rw [if_neg h1, if_pos h2, if_neg h1, if_pos h2]
      exact hcoll .obj hrs
    · rw [if_neg h2, ← hsrc] at hrs
      rw [if_neg h1, if_neg h2, if_neg h1, if_neg h2, ← hsrc, ← hrs]
      exact parseScalar_run (by rw [hrs]; exact hg') hc'

theorem collection_step (k : Kind) (node : Ptr)
    (hg : w.Grants (Reader.collectionRequests (fuel + 1) k w.toSrc)) (hc : Stands w.heap c) :
    CollectionYields w c (Reader.collectionRequests (fuel + 1) k w.toSrc) node
      (parseCollection (fuel + 1) (Parent.ptr c) k.tools node w) (Reader.collection (fuel + 1) k w.toSrc) := by
  unfold Reader.collectionRequests at hg ⊢
  obtain ⟨w2, hs, hb, hsp, hrun⟩ := collection_start k node fuel hg.head
  have hg2 : w2.Grants (Reader.itemsRequests fuel k [] false w.toSrc) :=
    hg.tail hs.oracle hsp.mallocs
  unfold Reader.collection
  have hloop := ih.items false (by rw [hs.src]; exact hg2) hb
  rw [hs.src, show ([] : List Item).map Item.pair = [] from rfl] at hloop
  rw [hrun]
  cases ho : Reader.items fuel k [] false w.toSrc with
  | timeout =>
    rw [ho] at hloop
    exact M.bind_error hloop
  | fail e s =>
    rw [ho] at hloop
    obtain ⟨exit, w3, xs, hrun3, hb3, hsp3, hexit⟩ := hloop
    rw [M.bind_ok hrun3]
    rcases hexit with ⟨rfl, hsrc⟩ | ⟨rfl, hsrc⟩
    · obtain ⟨w4, hrun4, hk4, hsrc4, hsp4⟩ := discard hb3.grown hb3.oracle hb3.stdout
      exact ⟨w4, M.bind_ok hrun4, hk4, hsrc4.trans hsrc, (hsp.trans hsp3).quiet hsp4⟩
    · have hb4 := hb3.src (w3.toSrc.report "unterminated collection")
      obtain ⟨w4, hrun4, hk4, hsrc4, hsp4⟩ := discard hb4.grown hb4.oracle hb4.stdout
      refine ⟨w4, ?_, hk4, hsrc4.trans hsrc, (hsp.trans hsp3).quiet hsp4.src⟩
      exact (M.bind_ok (report_run _ w3)).trans (M.bind_ok hrun4)
  | ok ms s =>
    rw [ho] at hloop
    obtain ⟨w3, xs, hrun3, hb3, hsp3, rfl, rfl⟩ := hloop
    obtain ⟨w4, hrun4, hm, hst, hsp4⟩ := afterLoop_run hc hb3 node
    refine ⟨.node w.heap.size (xs.map (·.node k)), w4, (M.bind_ok hrun3).trans hrun4, hm, ?_,
      (hsp.trans hsp3).quiet hsp4⟩
    exact .coll (fun x hx => hst.denotes (hb3.stored x hx).1)
      (fun x hx => hst.labelled (hb3.stored x hx).2) (hst.content hb3.content)

theorem items_step {w0 : World} {k : Kind} {a : Addr} {xs : List Item} (needs : Bool)
    (hg : w.Grants (Reader.itemsRequests (fuel + 1) k (xs.map Item.pair) needs w.toSrc))
    (hb : Building w0 w k a xs) :
    LoopYields w0 w k a (held w.heap (.node a (xs.map (·.node k))))
      (Reader.itemsRequests (fuel + 1) k (xs.map Item.pair) needs w.toSrc)
      (parseCollection.loop (fuel + 1) k.tools (some a) needs w)
      (Reader.items (fuel + 1) k (xs.map Item.pair) needs w.toSrc) := by
  obtain ⟨r, s, hr⟩ : ∃ r s, w.toSrc.read = (r, s) := ⟨_, _, rfl⟩
  obtain ⟨w1, hw1⟩ : ∃ w1, w1 = { w with toSrc := s } := ⟨_, rfl⟩
  have hb1 : Building w0 w1 k a xs := hw1 ▸ hb.src s
  have hs1 : w1.toSrc = s := by rw [hw1]
  have hh1 : held w.heap (.node a (xs.map (·.node k))) = held w1.heap (.node a (xs.map (·.node k))) := by rw [hw1]
  apply @LoopYields.src w w0 k a _ _ _ _ s
  rw [← hw1, hh1]
  cases r with
  | zero | minusOne =>
    unfold parseCollection.loop Reader.itemsRequests Reader.items
    rw [M.bind_ok (read_run w), hr, ← hw1]
    exact ⟨_, w1, xs, rfl, hb1, .of_live rfl rfl, .inr ⟨rfl, by rw [hs1]; rfl⟩⟩
  | one chr =>
    obtain ⟨n, hn, hfirst⟩ := hb.firstChild
    rw [Reader.itemsRequests_one hr] at hg ⊢
    rw [loop_one hr hn, Reader.items_one hr, hfirst, ← hw1]
    cases hact : loopAct k (xs.map Item.pair ≠ []) needs chr <;> rw [hact] at hg
    case again flag =>
      have hitems := ih.items flag (by rw [hs1, hw1]; exact hg) hb1
      rwa [hs1] at hitems
    case member =>
      have hitem := ih.item chr (by rw [hs1, hw1]; exact hg) hb1
      rwa [hs1] at hitem
    case done => exact ⟨w1, xs, rfl, hb1, .of_live rfl rfl, rfl, hs1⟩
    case fail c =>
      obtain ⟨m, hm⟩ := loopAct_fail hact
      dsimp only [Act.elim]
      rw [fail_eq hm, hm]
      exact ⟨.earlyExit, _, xs, M.bind_ok (report_run m w1), hb1.src _, .of_live rfl rfl,
        .inl ⟨rfl, by rw [hs1]⟩⟩

theorem item_step {w0 : World} {k : Kind} {a : Addr} {xs : List Item} (chr : UInt8)
    (hg : w.Grants (Reader.itemRequests (fuel + 1) k (xs.map Item.pair) chr w.toSrc))
    (hb : Building w0 w k a xs) :
    LoopYields w0 w k a (held w.heap (.node a (xs.map (·.node k))))
      (Reader.itemRequests (fuel + 1) k (xs.map Item.pair) chr w.toSrc)
      (parseCollection.member (fuel + 1) k.tools (some a) chr w)
      (Reader.item (fuel + 1) k (xs.map Item.pair) chr w.toSrc) := by
  unfold Reader.itemRequests at hg ⊢
  unfold parseCollection.member Reader.item
  have hmember := ih.member k none chr hg.left hb.stands
  cases ho : Reader.member fuel k chr w.toSrc with
  | timeout =>
    rw [ho] at hmember
    exact M.bind_error hmember
  | fail e s =>
    rw [ho] at hmember
    obtain ⟨p, es, w1, hrun, hk, hsrc, hsp⟩ := hmember
    refine ⟨.earlyExit, w1, xs, M.bind_ok hrun, hb.kept hk, ?_, .inl ⟨rfl, hsrc⟩⟩
    rw [(Stays.of_frame hk.frame).held hb.grown.hangs]
    have hframe := hsp.frame (held w.heap (.node a (xs.map (·.node k))))
    rw [Nat.zero_add] at hframe
    dsimp only
    rwa [List.append_nil]
  | ok p s =>
    obtain ⟨pair, e⟩ := p
    rw [ho] at hmember hg
    obtain ⟨t, w1, hrun, hm, hstored, hsp⟩ := hmember
    obtain ⟨x, hpair, rfl, hx⟩ := hstored
    have hb1 := hb.push hm hx
    have hsp1 := hb.spent hm hsp
    have hacc : xs.map Item.pair ++ [pair] = (xs ++ [x]).map Item.pair := by rw [List.map_append, ← hpair]; rfl
    dsimp only at hg ⊢
    rw [hacc] at hg ⊢
    have hg1 := hg.right hm.oracle hsp.mallocs
    generalize hrs : Reader.memberRequests fuel k chr w.toSrc = rs at *
    have hrun' : readMember fuel k.tools (some a) none chr (some 0) w =
      .ok ((true, some (x.node k).addr, some (e.getD 0)), w1) := hrun
    rw [M.bind_ok hrun', Out.bind_ok]
    dsimp only
    rw [if_pos rfl, Option.getD_some, isEndChar_eq, hacc]
    -- a branch that goes on
    have hitems : ∀ needs, w1.Grants (Reader.itemsRequests fuel k ((xs ++ [x]).map Item.pair) needs s) →
        LoopYields w0 w k a (held w.heap (.node a (xs.map (·.node k))))
          (rs ++ Reader.itemsRequests fuel k ((xs ++ [x]).map Item.pair) needs s)
          (parseCollection.loop fuel k.tools (some a) needs w1)
          (Reader.items fuel k ((xs ++ [x]).map Item.pair) needs s) := by
      intro needs hg1
      have h := ih.items needs (by rw [hm.src]; exact hg1) hb1
      rw [hm.src] at h
      exact h.after hsp1
    by_cases h1 : e.getD 0 = ch ','
    · rw [if_pos h1] at hg1
      rw [if_pos h1, if_pos h1, if_pos h1]
      exact hitems true hg1
    rw [if_neg h1] at hg1
    rw [if_neg h1, if_neg h1, if_neg h1]
    by_cases h2 : e.getD 0 = k.closeChar
    · rw [if_pos (beq_iff_eq.2 h2), if_pos h2, if_pos h2, List.append_nil]
      exact ⟨w1, _, rfl, hb1, hsp1, rfl, hm.src⟩
    rw [if_neg h2] at hg1
    rw [if_neg (mt beq_iff_eq.1 h2), if_neg h2, if_neg h2]
    by_cases h3 : (decide (e.getD 0 = ch '"') && decide (chr = ch '"') || decide (e.getD 0 = 0) ||
        isspace (e.getD 0)) = true
    · rw [if_pos h3] at hg1
      rw [if_pos h3, if_pos h3, if_pos h3]
      exact hitems false hg1
    · rw [if_neg h3, if_neg h3, if_neg h3, fail_eq rfl, List.append_nil]
      exact ⟨.earlyExit, _, _, M.bind_ok (report_run _ w1), hb1.src _, ⟨hsp1.mallocs, hsp1.live⟩,
        .inl ⟨rfl, by rw [hm.src]⟩⟩

theorem member_step (k : Kind) (node : Ptr) (chr : UInt8)
    (hg : w.Grants (Reader.memberRequests (fuel + 1) k chr w.toSrc)) (hc : Stands w.heap c) :
    Yields w c (Reader.memberRequests (fuel + 1) k chr w.toSrc) (propertySignal (some 0)) (IsMember k)
      (readMember (fuel + 1) k.tools (Parent.ptr c) node chr (some 0) w)
      (Reader.member (fuel + 1) k chr w.toSrc) := by
  cases k with
  | obj =>
    unfold Reader.memberRequests at hg ⊢
    unfold Reader.member
    exact ih.property node chr hg hc
  | arr =>
    unfold Reader.memberRequests at hg ⊢
    unfold Reader.member
    have hrun : readMember (fuel + 1) Kind.arr.tools (Parent.ptr c) node chr (some 0) w =
        jParser fuel (Parent.ptr c) node chr (some 0) w := rfl
    have hvalue := @Agree.value _ ih w c (some 0) node chr hg hc
    rw [hrun]
    cases ho : Reader.value fuel chr w.toSrc with
    | timeout =>
      rw [ho] at hvalue
      exact hvalue
    | fail e s =>
      rw [ho] at hvalue
      exact hvalue
    | ok p s =>
      obtain ⟨J, e⟩ := p
      rw [ho] at hvalue
      obtain ⟨t, w1, hrun, hm, hv, hsp⟩ := hvalue
      have hsig : signal (some 0) e = propertySignal (some 0) e := by cases e <;> rfl
      rw [hsig] at hrun
      exact ⟨t, w1, hrun, hm, ⟨⟨[], J, 0, 0, t⟩, rfl, rfl, hv, rfl⟩, hsp⟩

theorem property_step {es : Option UInt8} (node : Ptr) (chr : UInt8)
    (hg : w.Grants (Reader.propertyRequests (fuel + 1) chr w.toSrc)) (hc : Stands w.heap c) :
    Yields w c (Reader.propertyRequests (fuel + 1) chr w.toSrc) (propertySignal es) (IsMember .obj)
      (objectReadMember (fuel + 1) (Parent.ptr c) node chr es w)
      (Reader.property (fuel + 1) chr w.toSrc) := by
  unfold Reader.propertyRequests at hg ⊢
  unfold objectReadMember Reader.property
  by_cases hq : chr = ch '"'
  · rw [if_neg (not_not.2 hq)] at hg ⊢
    rw [if_neg (not_not.2 hq), if_neg (not_not.2 hq)]
    unfold Reader.quoted at hg ⊢
    subst hq
    obtain ⟨⟨t, e⟩, s', hl⟩ : ∃ r s', w.toSrc.lex endCheckForQuoted = (r, s') := ⟨_, _, rfl⟩
    obtain ⟨w1, hk, hm, hres⟩ := readQuoted_run hl hg.left
    have hg1 := hg.right hk.oracle hm
    rw [hl] at hg1 ⊢
    cases e with
    | none =>
      obtain ⟨hrun, hsrc, hnone⟩ := hres
      refine ⟨node, es, w1, ?_, hk, hsrc, ?_⟩
      · rw [M.bind_ok hrun]
        rfl
      · exact (Spent.unended hk hm hnone).trans (.refl _ _)
    | some e =>
      obtain ⟨q, hrun, hsrc, hnew⟩ := hres
      obtain ⟨hlo, htext, -⟩ := id hnew
      rw [M.bind_ok hrun]
      dsimp only at hg1 ⊢
      rw [if_pos rfl, Out.bind_ok]
      rw [← hsrc] at hg1
      have hloop := @Agree.afterLabel _ ih w w1 c es q t node false hg1 hc hk hlo htext
      rw [hsrc] at hloop
      have hsp := Spent.quoted hk hm hnew
      cases ho : Reader.afterLabel fuel false s' with
      | timeout =>
        rw [ho] at hloop
        exact M.bind_error hloop
      | fail k s =>
        rw [ho] at hloop
        obtain ⟨p, es', w2, hrun2, hk2, htext2, hsrc2, hsp2⟩ := hloop
        have hfree : Spent w2 { w2 with heap := w2.heap.release q } [] 1 0 := by
          refine ⟨rfl, ?_⟩
          exact (Store.card_live_release (List.nodup_singleton q) (by simp [htext2])
            fun x => by simp [Store.get?_release]).trans rfl
        refine ⟨p, es', { w2 with heap := w2.heap.release q }, ?_, ⟨?_, fun x hx => ?_, hk2.oracle,
          hk2.stdout⟩, hsrc2, (hsp.trans hsp2).quiet hfree⟩
        · rw [M.bind_ok hrun2]
          unfold readStringDestroy
          dsimp only
          rw [M.bind_ok (M.bind_ok (free_run w2 htext2))]
          rfl
        · rw [Store.size_release]
          exact hk2.size
        · rw [Store.get?_release_ne (Nat.ne_of_lt (Nat.lt_of_lt_of_le hx hlo)), hk2.frame x hx]
      | ok p s =>
        obtain ⟨J, e'⟩ := p
        rw [ho] at hloop
        obtain ⟨t', w2, hrun2, hm, hv, hsp2⟩ := hloop
        refine ⟨t', w2, ?_, hm, hv, hsp.trans hsp2⟩
        rw [M.bind_ok hrun2]
        rfl
  · rw [if_pos hq, if_pos hq, if_pos hq]
    exact ⟨node, es, _, M.bind_ok (report_run _ w), .src _ w _, rfl, .of_live rfl rfl⟩

theorem afterLabel_step {w0 : World} {es : Option UInt8} {q : Addr} {label : Bytes} (node : Ptr)
    (past : Bool) (hg : w.Grants (Reader.afterLabelRequests (fuel + 1) past w.toSrc))
    (hc : Stands w0.heap c) (hk : Kept w0.heap.size w0 w)
    (hlo : w0.heap.size ≤ q) (htext : w.heap.get? q = some (.text (label ++ [0]))) :
    AfterLabelYields w0 w c (Reader.afterLabelRequests (fuel + 1) past w.toSrc) es q label
      (objectReadMember.loop (fuel + 1) (Parent.ptr c) node es (some q) past w)
      (Reader.afterLabel (fuel + 1) past w.toSrc) := by
  obtain ⟨rs, hrs⟩ : ∃ rs, Reader.afterLabelRequests (fuel + 1) past w.toSrc = rs := ⟨_, rfl⟩
  rw [hrs] at hg ⊢
  unfold Reader.afterLabelRequests at hrs
  unfold objectReadMember.loop Reader.afterLabel
  rw [M.bind_ok (read_run w)]
  obtain ⟨r, s, hr⟩ : ∃ r s, w.toSrc.read = (r, s) := ⟨_, _, rfl⟩
  rw [hr] at hrs ⊢
  dsimp only at hrs ⊢
  obtain ⟨w1, hw1⟩ : ∃ w1, w1 = { w with toSrc := s } := ⟨_, rfl⟩
  have hk1 : Kept w0.heap.size w0 w1 := hw1 ▸ hk.trans (.src _ w s) (Nat.le_refl _)
  have htext1 : w1.heap.get? q = some (.text (label ++ [0])) := by rw [hw1]; exact htext
  have hs1 : w1.toSrc = s := by rw [hw1]
  have hg1 : w1.Grants rs := by rw [hw1]; exact hg
  apply @AfterLabelYields.src w c w0 _ es q label _ _ s
  rw [← hw1]
  have hloop := fun past (h : Reader.afterLabelRequests fuel past s = rs) =>
    @Agree.afterLabel _ ih w0 w1 c es q label node past (by rw [hs1, h]; exact hg1) hc hk1 hlo htext1
  rw [hs1] at hloop
  -- a check that fails behind the byte just read
  have hfail : ∀ (e : Check) (m : String), e.message = some m → [] = rs → AfterLabelYields w0 w1 c rs es q
      label ((do
        reportParseError m
        pure ((false, node, es), some q) : M ((Bool × Ptr × Option UInt8) × Ptr)) w1) (s.fail e) := by
    intro e m hm hrs
    rw [fail_eq hm, ← hrs]
    exact ⟨node, es, _, M.bind_ok (report_run m w1), hk1.trans (.src _ w1 _) (Nat.le_refl _), htext1,
      by rw [hs1], .of_live rfl rfl⟩
  cases r with
  | zero => exact hfail .eofAfterLabel _ rfl hrs
  | minusOne =>
    subst hrs
    exact ⟨node, es, w1, rfl, hk1, htext1, hs1, .refl _ _⟩
  | one chr =>
    dsimp only at hrs ⊢
    by_cases h1 : isspace chr = true
    · rw [if_pos h1] at hrs
      rw [if_pos h1, if_pos h1, ← hrs]
      exact hloop past hrs
    rw [if_neg h1] at hrs
    rw [if_neg h1, if_neg h1]
    by_cases h2 : chr = ch ':'
    · rw [if_pos h2] at hrs
      rw [if_pos h2, if_pos h2, ← hrs]
      exact hloop true hrs
    rw [if_neg h2] at hrs
    rw [if_neg h2, if_neg h2]
    cases past with
    | false =>
      simp only [Bool.false_eq_true, if_false] at hrs ⊢
      exact hfail .missingColon _ rfl hrs
    | true =>
      simp only [if_true] at hrs ⊢
      subst hrs
      have hvalue := @Agree.value _ ih w1 none (some 0) none chr (by rw [hs1]; exact hg1.left) trivial
      rw [hs1] at hvalue
      cases ho : Reader.value fuel chr s with
      | timeout =>
        rw [ho] at hvalue
        exact M.bind_error hvalue
      | fail k s' =>
        rw [ho] at hvalue
        obtain ⟨p, es', w2, hrun, hk2, hsrc, hsp⟩ := hvalue
        refine ⟨node, es, w2, M.bind_ok hrun, hk1.trans hk2 hk1.size, ?_, hsrc,
          (hsp.frame 1).trans (.refl _ _)⟩
        rw [hk2.frame q (Store.lt_size htext1), htext1]
      | ok p s' =>
        obtain ⟨J, e⟩ := p
        rw [ho] at hvalue hg1
        obtain ⟨t, w2, hrun, hm, hv, hsp⟩ := hvalue
        have hq : q < w1.heap.size := Store.lt_size htext1
        have hqt : q ∉ blocks w2.heap t.addrs := fun hx =>
          absurd (hm.grown.fresh q hx) (Nat.not_le_of_lt hq)
        have hg2 := hg1.right hm.oracle hsp.mallocs
        obtain ⟨w3, p, l, hrun3, hs3, hm3, hlive3, hg3, hst3, hpc, hlc⟩ := @buildProperty_run w0 w2 c t q
          label (hg2 0 Nat.two_pos) (hg2 1 Nat.one_lt_two) hc (hm.grown.since hk1.size hk1.frame)
          ⟨hlo, (hm.grown.frame q hq id).trans htext1, hqt⟩
        have hheld : held w3.heap (.node p [.node l [], t]) = held w2.heap t + 3 := by
          rw [held_property hpc hlc, hst3.held hm.grown.hangs]
        refine ⟨_, w3, ?_, ⟨hs3.src.trans hm.src, ?_, ?_, hg3⟩, ⟨⟨label, J, p, l, t⟩, rfl, rfl,
          hst3.denotes hv, hpc, hlc⟩, ?_⟩
        · have hsig : (signal (some 0) e).getD 0 = e.getD 0 := by cases e <;> rfl
          change jParser fuel none none chr (some 0) w1 = _ at hrun
          rw [M.bind_ok hrun]
          dsimp only
          rw [if_pos rfl, M.bind_ok hrun3, hsig]
          rfl
        · rw [hs3.oracle, hm.oracle, hk1.oracle]
        · rw [hs3.stdout, hm.stdout, hk1.stdout]
        · have hbuild : Spent w2 w3 [.property, .label] (0 + held w2.heap t + 1) (held w2.heap t + 3) :=
            ⟨hm3, by rw [hlive3, show leaks [.property, .label] = 0 from rfl]; omega⟩
          rw [hheld]
          rw [← Nat.zero_add (held w2.heap t)] at hsp
          exact (hsp.frame 1).trans hbuild

end Step

/-- **The parser and the reader agree.** -/
theorem agree (fuel : Nat) : Agree fuel := by
  induction fuel with
  | zero => exact agree_zero
  | succ fuel ih =>
    exact {
      value := value_step ih
      collection := collection_step ih
      items := items_step ih
      item := item_step ih
      member := member_step ih
      property := property_step ih
      afterLabel := afterLabel_step ih }

/-! ## The file -/

theorem confirm_run {fuel : Nat} {w : World} (hf : w.input.length < fuel) :
    confirmNoFurtherFileContent.loop fuel w =
      .ok ((Reader.tail w.input w.offset).1, { w with
        toSrc := { w.toSrc with
          input := (Reader.tail w.input w.offset).2.1, offset := (Reader.tail w.input w.offset).2.2 } }) := by
  induction fuel generalizing w with
  | zero => omega
  | succ fuel ih =>
    unfold confirmNoFurtherFileContent.loop
    rw [M.bind_ok (read_run w)]
    cases hi : w.input with
    | nil =>
      obtain ⟨r, hr, hor⟩ : ∃ r, w.toSrc.read = (r, w.toSrc) ∧ (r = .zero ∨ r = .minusOne) := by
        rw [Src.read, hi]
        exact ⟨_, rfl, by split <;> simp⟩
      rw [hr, Reader.tail, ← hi]
      rcases hor with rfl | rfl <;> rfl
    | cons b bs =>
      rw [read_cons hi]
      dsimp only
      rw [Reader.tail]
      by_cases hs : isspace b = true
      · rw [if_pos hs, if_pos hs]
        apply @ih { w with toSrc := { w.toSrc with input := bs, offset := w.offset + 1 } }
        rw [hi] at hf
        exact Nat.lt_of_succ_lt_succ hf
      · rw [if_neg hs, if_neg hs]
        rfl

/-- What `jd_parse_file` does, given what the reader does. -/
def FileYields (w : World) (rs : List Request) (res : Except Halt ((Bool × Ptr) × World)) : Out Json → Prop
  | .timeout => res = .error .timeout
  | .fail _ s => ∃ w', res = .ok ((false, none), w') ∧ Kept w.heap.size w w' ∧ w'.toSrc = s ∧
      Spent w w' rs 0 0
  | .ok J s => ∃ t w', res = .ok ((true, some t.addr), w') ∧ Made w w' none t s ∧ IsValue J w'.heap t ∧
      Spent w w' rs 0 (held w'.heap t)

/-- **`jd_parse_file` refines the reader** where what it asks for is granted: the same outcome, and the
tree of the document or nothing new in memory but the strings it loses. -/
theorem parseFile_run (fuel : Nat) (hg : w.Grants (Reader.valueRequests fuel 0 w.toSrc)) :
    FileYields w (Reader.valueRequests fuel 0 w.toSrc) (jdParseFile fuel w) (Reader.file fuel w.toSrc) := by
  have hvalue := @Agree.value _ (agree fuel) w none none none 0 hg trivial
  unfold jdParseFile Reader.file
  cases ho : Reader.value fuel 0 w.toSrc with
  | timeout =>
    rw [ho] at hvalue
    exact M.bind_error hvalue
  | fail k s =>
    rw [ho] at hvalue
    obtain ⟨p, es, w1, hrun, hk, hsrc, hsp⟩ := hvalue
    exact ⟨w1, M.bind_ok hrun, hk, hsrc, hsp⟩
  | ok p s =>
    obtain ⟨J, e⟩ := p
    rw [ho] at hvalue
    obtain ⟨t, w1, hrun, hm, hv, hsp⟩ := hvalue
    change jParser fuel none none 0 none w = _ at hrun
    rw [M.bind_ok hrun, Out.bind_ok, ← hm.src]
    dsimp only
    rw [if_pos rfl]
    have hconf : confirmNoFurtherFileContent w1 = _ := confirm_run (Nat.lt_succ_self _)
    rcases htail : Reader.tail w1.input w1.offset with ⟨_ | _, input, offset⟩
    · rw [htail] at hconf
      obtain ⟨w2, hw2⟩ : ∃ w2, w2 = { w1 with
        toSrc := { w1.toSrc with input, offset }.report
          "forbidden characters following singleton root object" } := ⟨_, rfl⟩
      have hg2 : Grown w.heap w2.heap none t := by rw [hw2]; exact hm.grown
      obtain ⟨w3, hrun3, hk3, hsrc3, hsp3⟩ := discard hg2 (by rw [hw2]; exact hm.oracle)
        (by rw [hw2]; exact hm.stdout)
      rw [hw2] at hsp3
      refine ⟨w3, ?_, hk3, by rw [hsrc3, hw2]; rfl, hsp.quiet hsp3.src⟩
      rw [M.bind_ok hconf, if_neg Bool.false_ne_true, M.bind_ok (report_run _ _), ← hw2, M.bind_ok hrun3]
      rfl
    · rw [htail] at hconf
      exact ⟨t, _, M.bind_ok hconf, ⟨rfl, hm.oracle, hm.stdout, hm.grown⟩, hv, hsp.mallocs, hsp.live⟩

end JsonDom
