import JsonDom.Proof.Fuel

/-!
# Enough fuel

Whichever allocations fail, more than eight units of fuel for each byte of the file do not change what
the parser comes to (`enough`): each of its loops reads a byte in a round, or stays where it is for ever.
So a call that returns does so with this fuel (`Returns.settled`).
-/

namespace JsonDom

variable {α β : Type}

/-- What is left of the file gets no longer. -/
def Consumes (x : M α) : Prop := ∀ w a w', x w = .ok (a, w') → w'.input.length ≤ w.input.length

namespace Consumes

theorem pure (a : α) : Consumes (Pure.pure a : M α) := by
  intro w b w' h
  cases h
  exact Nat.le_refl _

theorem halt (e : Halt) : Consumes (JsonDom.halt e : M α) := by
  intro w b w' h
  cases h

theorem bind {x : M α} {f : α → M β} (hx : Consumes x) (hf : ∀ a, Consumes (f a)) : Consumes (x >>= f) := by
  intro w b w' h
  obtain ⟨a, w1, h1, h2⟩ := M.bind_eq_ok h
  exact Nat.le_trans (hf a w1 b w' h2) (hx w a w1 h1)

theorem ite {c : Prop} [Decidable c] {x y : M α} (hx : Consumes x) (hy : Consumes y) :
    Consumes (if c then x else y) := by
  split
  · exact hx
  · exact hy

/-- A statement under a condition. -/
theorem when {c : Prop} [Decidable c] {x : M Unit} {rest : Unit → M β} (hx : Consumes x)
    (hrest : ∀ u, Consumes (rest u)) : Consumes (if c then x >>= rest else rest ()) :=
  ite (bind hx hrest) (hrest ())

/-- What depends on the world it starts in. -/
theorem world {f : World → M α} (h : ∀ w, Consumes (f w)) : Consumes (fun w => f w w) := fun w => h w w

theorem read : Consumes JsonDom.read := by
  intro w r w' h
  cases h
  dsimp only
  unfold Src.read
  split
  · next hi =>
    rw [hi]
    exact Nat.le_succ _
  · exact Nat.le_refl _

theorem report (message : String) : Consumes (reportParseError message) := by
  intro w r w' h
  cases h
  exact Nat.le_refl _

/-! ## Memory -/

theorem cAssert (b : Bool) : Consumes (JsonDom.cAssert b) := ite (pure ()) (halt _)

theorem malloc (c : Cell) : Consumes (JsonDom.malloc c) := by
  intro w p w' h
  unfold JsonDom.malloc at h
  split at h <;> cases h <;> exact Nat.le_refl _

theorem load (p : Ptr) : Consumes (JsonDom.load p) := by
  intro w c w' h
  unfold JsonDom.load at h
  split at h
  · cases h
  · split at h <;> cases h
    exact Nat.le_refl _

theorem store (a : Addr) (c : Cell) : Consumes (JsonDom.store a c) := by
  intro w u w' h
  unfold JsonDom.store at h
  split at h <;> cases h
  exact Nat.le_refl _

theorem free (p : Ptr) : Consumes (JsonDom.free p) := by
  intro w u w' h
  unfold JsonDom.free at h
  split at h
  · cases h
    exact Nat.le_refl _
  · split at h <;> cases h
    exact Nat.le_refl _

theorem getNode (p : Ptr) : Consumes (JsonDom.getNode p) := by
  unfold JsonDom.getNode
  refine bind (load p) fun c => ?_
  cases c with
  | node n => exact pure n
  | text | leaf | var => exact halt _

theorem modifyNode (p : Ptr) (f : JdNode → JdNode) : Consumes (JsonDom.modifyNode p f) :=
  bind (getNode p) fun _ => store _ _

theorem getString (p : Ptr) : Consumes (JsonDom.getString p) := by
  unfold JsonDom.getString
  refine bind (load p) fun c => ?_
  cases c with
  | text block => exact ite (pure _) (halt _)
  | node | leaf | var => exact halt _

/-! ## `CharBag.c` and `JReadString.c` -/

theorem getLeaf (charBag : CharBag) (p : Ptr) : Consumes (JsonDom.getLeaf charBag p) := by
  cases p with
  | none => exact pure _
  | some a =>
    refine bind (load _) fun c => ?_
    cases c with
    | leaf l => exact pure l
    | node | text | var => exact halt _

theorem putLeaf (charBag : CharBag) (p : Ptr) (l : CharBagLeaf) : Consumes (JsonDom.putLeaf charBag p l) := by
  cases p with
  | none => exact pure _
  | some a => exact bind (store _ _) fun _ => pure _

theorem saveChar (charBag : CharBag) (p : Ptr) (c : UInt8) : Consumes (JsonDom.saveChar charBag p c) :=
  bind (getLeaf _ _) fun _ => ite (putLeaf _ _ _) (halt _)

theorem addChar (charBag : CharBag) (c : UInt8) : Consumes (addCharToBag charBag c) := by
  refine bind (getLeaf _ _) fun l => ite ?_ ?_
  · refine bind (malloc _) fun new => bind (putLeaf _ _ _) fun bag => ite ?_ (pure _)
    exact bind (saveChar _ _ _) fun _ => pure _
  · exact bind (saveChar _ _ _) fun _ => pure _

theorem countChars (charBag : CharBag) (fuel : Nat) (l : CharBagLeaf) :
    Consumes (JsonDom.countChars charBag fuel l) := by
  induction fuel generalizing l with
  | zero => exact halt _
  | succ fuel ih =>
    unfold JsonDom.countChars
    cases l.next with
    | none => exact pure _
    | some a => exact bind (getLeaf _ _) fun _ => bind (ih _) fun _ => pure _

theorem copyChars (charBag : CharBag) (fuel : Nat) (l : CharBagLeaf) :
    Consumes (JsonDom.copyChars charBag fuel l) := by
  induction fuel generalizing l with
  | zero => exact halt _
  | succ fuel ih =>
    unfold JsonDom.copyChars
    cases l.next with
    | none => exact pure _
    | some a => exact bind (getLeaf _ _) fun _ => bind (ih _) fun _ => pure _

theorem toString (charBag : CharBag) : Consumes (charBagToString charBag) := by
  refine bind (world fun _ => countChars _ _ _) fun n => bind (malloc _) fun buff => ?_
  cases buff with
  | none => exact pure none
  | some a =>
    exact bind (world fun _ => copyChars _ _ _) fun s => bind (cAssert _) fun _ => bind (store _ _) fun _ => pure _

theorem cleanupRun (fuel : Nat) (p : Ptr) : Consumes (charBagCleanup.run fuel p) := by
  induction fuel generalizing p with
  | zero =>
    cases p with
    | none => exact pure ()
    | some a => exact halt _
  | succ fuel ih =>
    cases p with
    | none => exact pure ()
    | some a =>
      unfold charBagCleanup.run
      refine bind (load _) fun c => ?_
      cases c with
      | leaf l => exact bind (free _) fun _ => ih _
      | node | text | var => exact halt _

theorem cleanup (charBag : CharBag) : Consumes (charBagCleanup charBag) :=
  bind (world fun _ => cleanupRun _ _) fun _ => pure _

theorem readLoop (fuel : Nat) (handle : RSHandle) (charBag : CharBag) (esc : Bool) :
    Consumes (jReadString.loop charBagToString fuel handle charBag esc) := by
  induction fuel generalizing charBag esc with
  | zero => exact halt _
  | succ fuel ih =>
    unfold jReadString.loop
    refine bind read fun r => ?_
    cases r with
    | zero | minusOne => exact pure _
    | one chr =>
      refine ite ?_ (ite (ih _ _) (ite ?_ ?_))
      · exact bind (addChar _ _) fun _ => bind (addChar _ _) fun _ => ih _ _
      · refine bind (toString _) fun value => ?_
        cases value with
        | none => exact ih _ _
        | some a => exact pure _
      · exact bind (addChar _ _) fun _ => ih _ _

theorem readRest (handle : RSHandle) (charBag : CharBag) :
    Consumes (jReadString.rest charBagToString handle charBag) := by
  refine bind (world fun _ => readLoop _ _ _ _) fun (found, handle, charBag) => ite ?_ (ite ?_ ?_)
  · exact bind (cleanup _) fun _ => pure _
  · exact bind (report _) fun _ => bind (cleanup _) fun _ => pure _
  · refine bind (toString _) fun value => bind (cleanup _) fun _ => ?_
    cases value with
    | none => exact pure _
    | some a => exact pure _

theorem readString (handle : RSHandle) : Consumes (jReadString handle) :=
  ite (bind (addChar _ _) fun _ => readRest _ _) (readRest _ _)

theorem destroyString (handle : RSHandle) : Consumes (readStringDestroy handle) :=
  bind (free _) fun _ => pure _

/-! ## `jd_Node.c` -/

theorem adopt (adoptee parent before : Ptr) : Consumes (jdNodeAdopt adoptee parent before) := by
  unfold jdNodeAdopt
  refine bind (cAssert _) fun _ => bind (getNode _) fun n => bind (cAssert _) fun _ => bind (cAssert _) fun _ => ?_
  refine bind (cAssert _) fun _ => bind (modifyNode _ _) fun _ => ite ?_ ?_
  · refine bind (getNode _) fun b => bind (cAssert _) fun _ => ?_
    have hend : ∀ u : Unit, Consumes (do
        JsonDom.modifyNode adoptee fun n => { n with nextSibling := before }
        JsonDom.modifyNode before fun n => { n with prevSibling := adoptee }) := fun _ =>
      bind (modifyNode _ _) fun _ => modifyNode _ _
    refine ite ?_ ?_
    · exact bind (modifyNode _ _) fun _ => bind (modifyNode _ _) hend
    · exact bind (modifyNode _ _) hend
  · refine bind (getNode _) fun p => ite ?_ (modifyNode _ _)
    exact bind (modifyNode _ _) fun _ => bind (modifyNode _ _) fun _ => modifyNode _ _

theorem create (parent before : Ptr) : Consumes (jdNodeCreate parent before) := by
  unfold jdNodeCreate
  refine bind (malloc _) fun node => ite ?_ (pure none)
  exact when (adopt _ _ _) fun _ => pure node

theorem destroyRun (fuel : Nat) (node : Ptr) : Consumes (jdNodeDestroy.run fuel node) := by
  induction fuel generalizing node with
  | zero =>
    cases node with
    | none => exact pure none
    | some a => exact halt _
  | succ fuel ih =>
    cases node with
    | none => exact pure none
    | some a =>
      unfold jdNodeDestroy.run
      have hend : ∀ u : Unit, Consumes (do
          let n ← JsonDom.getNode (some a)
          JsonDom.free n.payload
          JsonDom.free (some a)
          Pure.pure none : M Ptr) := fun _ =>
        bind (getNode _) fun n => bind (free _) fun _ => bind (free _) fun _ => pure none
      have hnext : ∀ u : Unit, Consumes (do
          let n ← JsonDom.getNode (some a)
          if n.nextSibling.isSome then do
            let next ← jdNodeDestroy.run fuel n.nextSibling
            JsonDom.modifyNode (some a) fun n => { n with nextSibling := next }
          let n ← JsonDom.getNode (some a)
          JsonDom.free n.payload
          JsonDom.free (some a)
          Pure.pure none : M Ptr) := fun _ =>
        bind (getNode _) fun n => ite (bind (ih _) fun next => bind (modifyNode _ _) hend) (hend ())
      exact bind (getNode _) fun n => ite (bind (ih _) fun child => bind (modifyNode _ _) hnext) (hnext ())

theorem destroy (node : Ptr) : Consumes (jdNodeDestroy node) := fun w => destroyRun w.heap.size node w

theorem discardPayload (node : Ptr) : Consumes (jdNodeDiscardPayload node) := by
  unfold jdNodeDiscardPayload
  refine bind (getNode _) fun n => ite ?_ (pure true)
  exact bind (free _) fun _ => bind (modifyNode _ _) fun _ => pure true

theorem setType (node : Ptr) (type : JdType) : Consumes (JsonDom.setType node type) := modifyNode _ _

theorem setPlain (node : Ptr) (type : JdType) : Consumes (jdNodeSetPlain node type) :=
  bind (discardPayload _) fun _ => bind (setType _ _) fun _ => pure true

theorem takeString (node str : Ptr) : Consumes (jdNodeTakeString node str) :=
  bind (discardPayload _) fun _ => bind (modifyNode _ _) fun _ => bind (setType _ _) fun _ => pure true

theorem setNumber (node : Ptr) (value : Bytes) (type : JdType) : Consumes (jdNodeSetNumber node value type) := by
  refine bind (bind (discardPayload _) fun _ => bind (malloc _) fun p => ite ?_ (pure false)) fun ok =>
    ite (bind (setType _ _) fun _ => pure true) (pure false)
  exact bind (modifyNode _ _) fun _ => bind (setType _ _) fun _ => pure true

/-! ## `JParser.c` -/

theorem skip (fuel : Nat) (chr : UInt8) : Consumes (skipSpace fuel chr) := by
  induction fuel generalizing chr with
  | zero => exact halt _
  | succ fuel ih =>
    unfold skipSpace
    refine ite (bind read fun r => ?_) (pure _)
    cases r with
    | one | minusOne => exact ih _
    | zero => exact bind (report _) fun _ => pure none

theorem unquoted (tempNode string : Ptr) : Consumes (setUnquoted tempNode string) := by
  refine bind (getString _) fun str => ite (bind (setPlain _ _) fun _ => pure true) ?_
  refine ite (bind (setPlain _ _) fun _ => pure true) (ite (bind (setPlain _ _) fun _ => pure true) ?_)
  refine ite (ite (ite ?_ ?_) ?_) ?_
  · exact bind (setNumber _ _ _) fun _ => pure true
  · exact bind (setNumber _ _ _) fun _ => pure true
  · exact bind (report _) fun _ => pure false
  · exact bind (report _) fun _ => pure false

theorem scalar (parent : Ptr) (chr : UInt8) (es : Option UInt8) : Consumes (parseScalar parent chr es) := by
  refine bind (readString _) fun (ok, rsh) => ite ?_ (bind (destroyString _) fun _ => pure _)
  refine bind (create _ _) fun tempNode => ite ?_ (pure _)
  have hend : ∀ retval : Bool, Consumes (if retval = true then do
      if parent.isSome then jdNodeAdopt tempNode parent none
      Pure.pure (true, tempNode, es.map fun _ => rsh.endSignal)
    else do
      let _ ← jdNodeDestroy tempNode
      Pure.pure (false, none, es.map fun _ => rsh.endSignal) : M (Bool × Ptr × Option UInt8)) := fun retval =>
    ite (when (adopt _ _ _) fun _ => pure _) (bind (destroy _) fun _ => pure _)
  exact ite (bind (takeString _ _) fun _ => hend true) (bind (unquoted _ _) hend)

theorem property (parent valueNode label : Ptr) : Consumes (buildProperty parent valueNode label) := by
  refine bind (create _ _) fun propNode => ite ?_ (pure _)
  refine bind (setType _ _) fun _ => bind (create _ _) fun labelNode => ite ?_ ?_
  · exact bind (takeString _ _) fun _ => bind (adopt _ _ _) fun _ => pure _
  · exact bind (destroy _) fun _ => pure _

/-- No function of the parser puts anything back. -/
structure Parser (fuel : Nat) : Prop where
  value : ∀ parent node chr es, Consumes (jParser fuel parent node chr es)
  collection : ∀ parent tools node, Consumes (parseCollection fuel parent tools node)
  loop : ∀ tools newNode needs, Consumes (parseCollection.loop fuel tools newNode needs)
  member : ∀ tools newNode chr, Consumes (parseCollection.member fuel tools newNode chr)
  read : ∀ tools parent node chr es, Consumes (readMember fuel tools parent node chr es)
  object : ∀ parent node chr es, Consumes (objectReadMember fuel parent node chr es)
  afterLabel : ∀ parent node es label past, Consumes (objectReadMember.loop fuel parent node es label past)

theorem parser (fuel : Nat) : Parser fuel := by
  induction fuel with
  | zero =>
    exact ⟨fun _ _ _ _ => halt _, fun _ _ _ => halt _, fun _ _ _ => halt _, fun _ _ _ => halt _,
      fun _ _ _ _ _ => halt _, fun _ _ _ _ => halt _, fun _ _ _ _ _ => halt _⟩
  | succ fuel ih =>
    constructor
    case value =>
      intro parent node chr es
      unfold jParser
      refine bind (skip _ _) fun r => ?_
      cases r with
      | none => exact pure _
      | some chr =>
        exact ite (bind (ih.collection _ _ _) fun _ => ite (pure _) (pure _))
          (ite (bind (ih.collection _ _ _) fun _ => ite (pure _) (pure _)) (scalar _ _ _))
    case collection =>
      intro parent tools node
      unfold parseCollection
      have hfail : Consumes (do
          reportParseError "unterminated collection"
          Pure.pure (false, node) : M (Bool × Ptr)) := bind (report _) fun _ => pure _
      refine bind (create _ _) fun newNode => ite ?_ hfail
      have hcoerce : Consumes (tools.coerceType newNode) := by cases tools <;> exact setPlain _ _
      refine bind hcoerce fun ok => ite ?_ (bind (report _) fun _ => bind (destroy _) fun _ => pure _)
      refine bind (ih.loop _ _ _) fun exit => ?_
      cases exit with
      | earlyExit => exact bind (destroy _) fun _ => pure _
      | done retval =>
        cases retval with
        | true => exact when (adopt _ _ _) fun _ => bind (report _) fun _ => pure _
        | false => exact bind (report _) fun _ => bind (destroy _) fun _ => pure _
    case loop =>
      intro tools newNode needs
      unfold parseCollection.loop
      have hfail : ∀ message, Consumes (do
          reportParseError message
          Pure.pure .earlyExit : M LoopExit) := fun message => bind (report message) fun _ => pure _
      refine bind JsonDom.Consumes.read fun r => ?_
      cases r with
      | zero | minusOne => exact pure _
      | one chr =>
        refine ite (ih.loop _ _ _) (ite (ite (hfail _) (ih.member _ _ _)) (ite (ite (hfail _) (pure _)) (ite
          (hfail _) (bind (getNode _) fun n => ite (ite (hfail _) (ih.loop _ _ _)) (ite (hfail _)
          (ih.member _ _ _))))))
    case member =>
      intro tools newNode chr
      unfold parseCollection.member
      exact bind (ih.read _ _ _ _ _) fun _ => ite (ite (ih.loop _ _ _) (ite (pure _)
        (ite (ih.loop _ _ _) (bind (report _) fun _ => pure _)))) (pure _)
    case read =>
      intro tools parent node chr es
      cases tools with
      | arrayTools => exact ih.value _ _ _ _
      | objectTools => exact ih.object _ _ _ _
    case object =>
      intro parent node chr es
      unfold objectReadMember
      exact ite (bind (report _) fun _ => pure _) (bind (readString _) fun _ => ite
        (bind (ih.afterLabel _ _ _ _ _) fun _ => bind (destroyString _) fun _ => pure _)
        (bind (destroyString _) fun _ => pure _))
    case afterLabel =>
      intro parent node es label past
      unfold objectReadMember.loop
      refine bind JsonDom.Consumes.read fun r => ?_
      cases r with
      | zero => exact bind (report _) fun _ => pure _
      | minusOne => exact pure _
      | one chr =>
        refine ite (ih.afterLabel _ _ _ _ _) (ite (ih.afterLabel _ _ _ _ _) (ite ?_
          (bind (report _) fun _ => pure _)))
        refine bind (ih.value _ _ _ _) fun _ => ite (bind (property _ _ _) fun _ => ite (pure _) (pure _)) (pure _)

end Consumes

/-! ## Fuel that is enough -/

/-- Two computations that go on in the same way where the file has not got longer. -/
theorem bind_same {x y : M α} {f g : α → M β} {w : World} (hr : Consumes x) (hxy : y w = x w)
    (hfg : ∀ a w1, x w = .ok (a, w1) → w1.input.length ≤ w.input.length → g a w1 = f a w1) :
    (y >>= g) w = (x >>= f) w := by
  cases hx : x w with
  | error e => rw [M.bind_error (hxy.trans hx), M.bind_error hx]
  | ok p => rw [M.bind_ok (hxy.trans hx), M.bind_ok hx, hfg p.1 p.2 hx (hr w p.1 p.2 hx)]

theorem ite_same {c : Prop} [Decidable c] {x y x' y' : M α} {w : World} (ht : y w = x w) (he : y' w = x' w) :
    (if c then y else y') w = (if c then x else x') w := by
  split
  · exact ht
  · exact he

/-- A round of a loop has a byte less left. -/
theorem read_shorter {w w1 : World} {chr : UInt8} (h : read w = .ok (.one chr, w1)) :
    w1.input.length < w.input.length := by
  unfold read Src.read at h
  split at h
  · next hi =>
    cases h
    rw [hi]
    exact Nat.lt_succ_self _
  · dsimp only at h
    split at h <;> cases h

/-- Behind the last byte the whitespace loop runs for ever where the file cannot be read. -/
theorem skip_stuck {w : World} {chr : UInt8} (hi : w.input = []) (he : w.ending = .error) (hs : isspace chr = true)
    (fuel : Nat) : skipSpace fuel chr w = .error .timeout := by
  induction fuel with
  | zero => rfl
  | succ fuel ih =>
    have hread : read w = .ok (.minusOne, w) := by
      unfold read Src.read
      rw [hi, he]
      rfl
    unfold skipSpace
    rw [if_pos hs, M.bind_ok hread]
    exact ih

theorem skip_settled {w : World} {fuel : Nat} (chr : UInt8) (h : w.input.length + 2 ≤ fuel) :
    skipSpace (fuel + 1) chr w = skipSpace fuel chr w := by
  induction fuel generalizing w chr with
  | zero => omega
  | succ fuel ih =>
    by_cases hs : isspace chr = true
    · by_cases hend : w.input = [] ∧ w.ending = .error
      · rw [skip_stuck hend.1 hend.2 hs, skip_stuck hend.1 hend.2 hs]
      · unfold skipSpace
        rw [if_pos hs, if_pos hs]
        refine bind_same Consumes.read rfl fun r w1 hr _ => ?_
        cases r with
        | zero => rfl
        | one chr =>
          have := read_shorter hr
          exact ih chr (by omega)
        | minusOne =>
          -- only behind the last byte
          refine absurd ?_ hend
          unfold read Src.read at hr
          cases hi : w.input with
          | cons b bs =>
            rw [hi] at hr
            cases hr
          | nil =>
            rw [hi] at hr
            cases he : w.ending with
            | error => exact ⟨rfl, rfl⟩
            | eof =>
              rw [he] at hr
              cases hr
    · unfold skipSpace
      rw [if_neg hs, if_neg hs]

/-- With this much fuel one unit more changes nothing. -/
structure Enough (fuel : Nat) : Prop where
  value : ∀ {w : World} (parent node chr es), 8 * w.input.length + 3 ≤ fuel →
    jParser (fuel + 1) parent node chr es w = jParser fuel parent node chr es w
  collection : ∀ {w : World} (parent tools node), 8 * w.input.length + 2 ≤ fuel →
    parseCollection (fuel + 1) parent tools node w = parseCollection fuel parent tools node w
  loop : ∀ {w : World} (tools newNode needs), 8 * w.input.length + 1 ≤ fuel →
    parseCollection.loop (fuel + 1) tools newNode needs w = parseCollection.loop fuel tools newNode needs w
  member : ∀ {w : World} (tools newNode chr), 8 * w.input.length + 5 ≤ fuel →
    parseCollection.member (fuel + 1) tools newNode chr w = parseCollection.member fuel tools newNode chr w
  read : ∀ {w : World} (tools parent node chr es), 8 * w.input.length + 4 ≤ fuel →
    readMember (fuel + 1) tools parent node chr es w = readMember fuel tools parent node chr es w
  object : ∀ {w : World} (parent node chr es), 8 * w.input.length + 2 ≤ fuel →
    objectReadMember (fuel + 1) parent node chr es w = objectReadMember fuel parent node chr es w
  afterLabel : ∀ {w : World} (parent node es label past), 8 * w.input.length + 1 ≤ fuel →
    objectReadMember.loop (fuel + 1) parent node es label past w =
      objectReadMember.loop fuel parent node es label past w

theorem enough (fuel : Nat) : Enough fuel := by
  induction fuel with
  | zero => constructor <;> intros <;> omega
  | succ fuel ih =>
    constructor
    case value =>
      intro w parent node chr es h
      unfold jParser
      refine bind_same (Consumes.skip _ _) (skip_settled _ (by omega)) fun r w1 _ hle => ?_
      cases r with
      | none => rfl
      | some chr =>
        have hcoll : ∀ tools, parseCollection (fuel + 1) parent tools none w1 =
            parseCollection fuel parent tools none w1 := fun tools => ih.collection _ _ _ (by omega)
        refine ite_same ?_ (ite_same ?_ rfl)
        · exact bind_same ((Consumes.parser _).collection _ _ _) (hcoll _) fun _ _ _ _ => rfl
        · exact bind_same ((Consumes.parser _).collection _ _ _) (hcoll _) fun _ _ _ _ => rfl
    case collection =>
      intro w parent tools node h
      unfold parseCollection
      refine bind_same (Consumes.create _ _) rfl fun newNode w1 _ hle1 => ite_same ?_ rfl
      have hcoerce : Consumes (tools.coerceType newNode) := by cases tools <;> exact Consumes.setPlain _ _
      refine bind_same hcoerce rfl fun ok w2 _ hle2 => ite_same ?_ rfl
      exact bind_same ((Consumes.parser _).loop _ _ _) (ih.loop _ _ _ (by omega)) fun _ _ _ _ => rfl
    case loop =>
      intro w tools newNode needs h
      unfold parseCollection.loop
      refine bind_same Consumes.read rfl fun r w1 hr _ => ?_
      cases r with
      | zero | minusOne => rfl
      | one chr =>
        have hlt := read_shorter hr
        have hloop : ∀ {w2 : World} needs, w2.input.length < w.input.length →
            parseCollection.loop (fuel + 1) tools newNode needs w2 =
              parseCollection.loop fuel tools newNode needs w2 := fun needs h2 => ih.loop _ _ _ (by omega)
        have hmember : ∀ {w2 : World}, w2.input.length < w.input.length →
            parseCollection.member (fuel + 1) tools newNode chr w2 =
              parseCollection.member fuel tools newNode chr w2 := fun h2 => ih.member _ _ _ (by omega)
        refine ite_same (hloop _ hlt) (ite_same (ite_same rfl (hmember hlt)) (ite_same rfl (ite_same rfl ?_)))
        refine bind_same (Consumes.getNode _) rfl fun n w2 _ hle => ?_
        have hlt2 := Nat.lt_of_le_of_lt hle hlt
        exact ite_same (ite_same rfl (hloop _ hlt2)) (ite_same rfl (hmember hlt2))
    case member =>
      intro w tools newNode chr h
      unfold parseCollection.member
      refine bind_same ((Consumes.parser _).read _ _ _ _ _) (ih.read _ _ _ _ _ (by omega)) fun r w1 _ hle => ?_
      have hloop : ∀ needs, parseCollection.loop (fuel + 1) tools newNode needs w1 =
          parseCollection.loop fuel tools newNode needs w1 := fun needs => ih.loop _ _ _ (by omega)
      exact ite_same (ite_same (hloop _) (ite_same rfl (ite_same (hloop _) rfl))) rfl
    case read =>
      intro w tools parent node chr es h
      cases tools with
      | arrayTools => exact ih.value _ _ _ _ (by omega)
      | objectTools => exact ih.object _ _ _ _ (by omega)
    case object =>
      intro w parent node chr es h
      unfold objectReadMember
      refine ite_same rfl (bind_same (Consumes.readString _) rfl fun r w1 _ hle => ite_same ?_ rfl)
      exact bind_same ((Consumes.parser _).afterLabel _ _ _ _ _) (ih.afterLabel _ _ _ _ _ (by omega))
        fun _ _ _ _ => rfl
    case afterLabel =>
      intro w parent node es label past h
      unfold objectReadMember.loop
      refine bind_same Consumes.read rfl fun r w1 hr _ => ?_
      cases r with
      | zero | minusOne => rfl
      | one chr =>
        have := read_shorter hr
        have hloop : ∀ past, objectReadMember.loop (fuel + 1) parent node es label past w1 =
            objectReadMember.loop fuel parent node es label past w1 := fun past =>
          ih.afterLabel _ _ _ _ _ (by omega)
        refine ite_same (hloop _) (ite_same (hloop _) (ite_same ?_ rfl))
        exact bind_same ((Consumes.parser _).value _ _ _ _) (ih.value _ _ _ _ (by omega)) fun _ _ _ _ => rfl

/-- **More fuel than this changes nothing.** -/
theorem jdParseFile_settled {w : World} {fuel : Nat} (h : 8 * w.input.length + 3 ≤ fuel) :
    jdParseFile fuel w = jdParseFile (8 * w.input.length + 3) w := by
  induction fuel, h using Nat.le_induction with
  | base => rfl
  | succ fuel h ih =>
    rw [← ih]
    unfold jdParseFile
    exact bind_same ((Consumes.parser _).value _ _ _ _) ((enough fuel).value _ _ _ _ h) fun _ _ _ _ => rfl

/-- A call that returns does so with this fuel. -/
theorem Returns.settled {w w' : World} {result : Bool × Ptr} (h : Returns w result w') :
    jdParseFile (8 * w.input.length + 3) w = .ok (result, w') := by
  obtain ⟨n, h⟩ := h
  have hrun := h (max n (8 * w.input.length + 3)) (Nat.le_max_left _ _)
  rwa [jdParseFile_settled (Nat.le_max_right _ _)] at hrun

end JsonDom
