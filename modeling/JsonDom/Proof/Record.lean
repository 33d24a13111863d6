import JsonDom.Spec.Reports

/-!
# What is in the record before

The reader and the list of its events do not look at the error record: from places in the file that
differ in nothing else they come to the same (`Blind`, by induction on the fuel; `valueEvents_record`).
-/

namespace JsonDom

/-- The same place in the same file, with another record. -/
def Src.Alike (s s' : Src) : Prop := ∃ pe, s' = { s with pe := pe }

variable {α β : Type} {s s' : Src}

namespace Src.Alike

theorem report (h : s.Alike s') (m m' : String) : (s.report m).Alike (s'.report m') := by
  obtain ⟨pe, rfl⟩ := h
  exact ⟨_, rfl⟩

theorem read (h : s.Alike s') :
    ∃ r s1 s1', s.read = (r, s1) ∧ s'.read = (r, s1') ∧ s1.Alike s1' := by
  obtain ⟨pe, rfl⟩ := h
  obtain ⟨input, ending, offset, pe0⟩ := s
  cases input with
  | nil => cases ending <;> exact ⟨_, _, _, rfl, rfl, pe, rfl⟩
  | cons b input => exact ⟨_, _, _, rfl, rfl, pe, rfl⟩

theorem lex (h : s.Alike s') (stop : UInt8 → Bool) :
    ∃ r s1 s1', s.lex stop = (r, s1) ∧ s'.lex stop = (r, s1') ∧ s1.Alike s1' := by
  obtain ⟨pe, rfl⟩ := h
  exact ⟨_, _, _, rfl, rfl, pe, rfl⟩

end Src.Alike

/-- The same outcome but for the record. -/
inductive Out.Alike : Out α → Out α → Prop
  | ok (a : α) {s s' : Src} : s.Alike s' → Alike (.ok a s) (.ok a s')
  | fail (c : Check) {s s' : Src} : s.Alike s' → Alike (.fail c s) (.fail c s')
  | timeout : Alike .timeout .timeout

namespace Out.Alike

theorem bind {x x' : Out α} {f f' : α → Src → Out β} (hx : x.Alike x')
    (hf : ∀ a {s s' : Src}, s.Alike s' → (f a s).Alike (f' a s')) : (x.bind f).Alike (x'.bind f') := by
  cases hx with
  | ok a h => exact hf a h
  | fail c h => exact .fail c h
  | timeout => exact .timeout

theorem ite {c : Prop} [Decidable c] {x y x' y' : Out α} (hx : x.Alike x') (hy : y.Alike y') :
    (if c then x else y).Alike (if c then x' else y') := by
  split
  · exact hx
  · exact hy

end Out.Alike

theorem Src.Alike.fails (h : s.Alike s') (c : Check) : (s.fail c : Out α).Alike (s'.fail c) := by
  unfold Src.fail
  cases c.message with
  | none => exact .fail c h
  | some m => exact .fail c (h.report m m)

namespace Reader

theorem quoted_alike (h : s.Alike s') : (quoted s).Alike (quoted s') := by
  obtain ⟨⟨t, e⟩, s1, s1', hr, hr', hs⟩ := h.lex endCheckForQuoted
  unfold quoted
  rw [hr, hr']
  cases e with
  | none => exact hs.fails _
  | some e => exact .ok t hs

theorem scalar_alike (chr : UInt8) (h : s.Alike s') : (scalar chr s).Alike (scalar chr s') := by
  unfold scalar
  refine .ite ((quoted_alike h).bind fun t s s' hs => .ok _ hs) ?_
  obtain ⟨⟨t, e⟩, s1, s1', hr, hr', hs⟩ := h.lex endCheckForUnquoted
  rw [hr, hr']
  dsimp only
  cases unquoted ((chr :: t).takeWhile (· ≠ 0)) with
  | ok J => exact .ok _ hs
  | error c => exact hs.fails c

theorem blanks_alike (fuel : Nat) (chr : UInt8) (h : s.Alike s') :
    (blanks fuel chr s).Alike (blanks fuel chr s') := by
  induction fuel generalizing chr s s' with
  | zero => exact .timeout
  | succ fuel ih =>
    obtain ⟨r, s1, s1', hr, hr', hs⟩ := h.read
    unfold blanks
    rw [hr, hr']
    refine .ite ?_ (.ok chr h)
    cases r with
    | one chr => exact ih chr hs
    | zero => exact hs.fails _
    | minusOne => exact ih chr hs

theorem quotedRequests_alike (h : s.Alike s') : quotedRequests s' = quotedRequests s := by
  obtain ⟨⟨t, e⟩, s1, s1', hr, hr', -⟩ := h.lex endCheckForQuoted
  unfold quotedRequests
  rw [hr, hr']
  cases e <;> rfl

theorem bareRequests_alike (h : s.Alike s') : bareRequests s' = bareRequests s := by
  obtain ⟨⟨t, e⟩, s1, s1', hr, hr', -⟩ := h.lex endCheckForUnquoted
  unfold bareRequests
  rw [hr, hr']
  cases e <;> rfl

theorem scalarRequests_alike (chr : UInt8) (h : s.Alike s') : scalarRequests chr s' = scalarRequests chr s := by
  have hq := quoted_alike h
  have hs := scalar_alike chr h
  unfold scalarRequests
  rw [bareRequests_alike h, quotedRequests_alike h]
  generalize quoted s = x at hq ⊢
  generalize quoted s' = x' at hq ⊢
  generalize scalar chr s = y at hs ⊢
  generalize scalar chr s' = y' at hs ⊢
  cases hq <;> cases hs <;> rfl

/-- With this much fuel nothing depends on the record. -/
structure Blind (fuel : Nat) : Prop where
  value (chr : UInt8) {s s' : Src} : s.Alike s' → (value fuel chr s).Alike (value fuel chr s')
  collection (k : Kind) {s s' : Src} : s.Alike s' → (collection fuel k s).Alike (collection fuel k s')
  items (k : Kind) (acc : List (Bytes × Json)) (needs : Bool) {s s' : Src} :
    s.Alike s' → (items fuel k acc needs s).Alike (items fuel k acc needs s')
  item (k : Kind) (acc : List (Bytes × Json)) (chr : UInt8) {s s' : Src} :
    s.Alike s' → (item fuel k acc chr s).Alike (item fuel k acc chr s')
  member (k : Kind) (chr : UInt8) {s s' : Src} :
    s.Alike s' → (member fuel k chr s).Alike (member fuel k chr s')
  property (chr : UInt8) {s s' : Src} : s.Alike s' → (property fuel chr s).Alike (property fuel chr s')
  afterLabel (past : Bool) {s s' : Src} :
    s.Alike s' → (afterLabel fuel past s).Alike (afterLabel fuel past s')

theorem blind (fuel : Nat) : Blind fuel := by
  induction fuel with
  | zero =>
    exact ⟨fun _ _ _ _ => .timeout, fun _ _ _ _ => .timeout, fun _ _ _ _ _ _ => .timeout,
      fun _ _ _ _ _ _ => .timeout, fun k _ _ _ _ => by cases k <;> exact .timeout, fun _ _ _ _ => .timeout,
      fun _ _ _ _ => .timeout⟩
  | succ fuel ih =>
    constructor
    case value =>
      intro chr s s' h
      unfold Reader.value
      refine (blanks_alike fuel _ h).bind fun chr s s' h => ?_
      refine .ite ((ih.collection .arr h).bind fun J s s' h => .ok _ h) ?_
      exact .ite ((ih.collection .obj h).bind fun J s s' h => .ok _ h)
        ((scalar_alike chr h).bind fun J s s' h => .ok _ h)
    case collection =>
      intro k s s' h
      unfold Reader.collection
      exact (ih.items k [] false h).bind fun ms s s' h => .ok _ (h.report _ _)
    case items =>
      intro k acc needs s s' h
      obtain ⟨r, s1, s1', hr, hr', hs⟩ := h.read
      unfold Reader.items
      rw [hr, hr']
      cases r with
      | zero | minusOne => exact hs.fails _
      | one chr =>
        refine .ite (ih.items k acc needs hs) (.ite (.ite (hs.fails _) (ih.item k acc chr hs)) ?_)
        refine .ite (.ok acc hs) (.ite (hs.fails _) (.ite (.ite (hs.fails _) (ih.items k acc true hs)) ?_))
        exact .ite (hs.fails _) (ih.item k acc chr hs)
    case item =>
      intro k acc chr s s' h
      unfold Reader.item
      refine (ih.member k chr h).bind fun x s s' h => ?_
      exact .ite (ih.items k _ true h) (.ite (.ok _ h) (.ite (ih.items k _ false h) (h.fails _)))
    case member =>
      intro k chr s s' h
      cases k with
      | arr => exact (ih.value chr h).bind fun x s s' h => .ok _ h
      | obj => exact ih.property chr h
    case property =>
      intro chr s s' h
      unfold Reader.property
      refine .ite (h.fails _) ((quoted_alike h).bind fun label s s' h => ?_)
      exact (ih.afterLabel false h).bind fun x s s' h => .ok _ h
    case afterLabel =>
      intro past s s' h
      obtain ⟨r, s1, s1', hr, hr', hs⟩ := h.read
      unfold Reader.afterLabel
      rw [hr, hr']
      cases r with
      | zero | minusOne => exact hs.fails _
      | one chr =>
        exact .ite (ih.afterLabel past hs) (.ite (ih.afterLabel true hs) (.ite (ih.value chr hs) (hs.fails _)))

/-- With this much fuel the events do not depend on the record. -/
structure BlindEvents (fuel : Nat) : Prop where
  value (chr : UInt8) {s s' : Src} : s.Alike s' → valueEvents fuel chr s' = valueEvents fuel chr s
  collection (k : Kind) {s s' : Src} : s.Alike s' → collectionEvents fuel k s' = collectionEvents fuel k s
  items (k : Kind) (acc : List (Bytes × Json)) (needs : Bool) {s s' : Src} :
    s.Alike s' → itemsEvents fuel k acc needs s' = itemsEvents fuel k acc needs s
  item (k : Kind) (acc : List (Bytes × Json)) (chr : UInt8) {s s' : Src} :
    s.Alike s' → itemEvents fuel k acc chr s' = itemEvents fuel k acc chr s
  member (k : Kind) (chr : UInt8) {s s' : Src} : s.Alike s' → memberEvents fuel k chr s' = memberEvents fuel k chr s
  property (chr : UInt8) {s s' : Src} : s.Alike s' → propertyEvents fuel chr s' = propertyEvents fuel chr s
  afterLabel (past : Bool) {s s' : Src} :
    s.Alike s' → afterLabelEvents fuel past s' = afterLabelEvents fuel past s

theorem blindEvents (fuel : Nat) : BlindEvents fuel := by
  induction fuel with
  | zero =>
    exact ⟨fun _ _ _ _ => rfl, fun _ _ _ _ => rfl, fun _ _ _ _ _ _ => rfl, fun _ _ _ _ _ _ => rfl,
      fun k _ _ _ _ => by cases k <;> rfl, fun _ _ _ _ => rfl, fun _ _ _ _ => rfl⟩
  | succ fuel ih =>
    constructor
    case value =>
      intro chr s s' h
      have hb := blanks_alike fuel (if chr ≠ 0 then chr else ch ' ') h
      unfold valueEvents
      generalize blanks fuel _ s = x at hb ⊢
      generalize blanks fuel _ s' = x' at hb ⊢
      cases hb with
      | ok chr h => simp only [ih.collection _ h, scalarRequests_alike chr h]
      | fail | timeout => rfl
    case collection =>
      intro k s s' h
      unfold collectionEvents
      rw [ih.items k [] false h]
    case items =>
      intro k acc needs s s' h
      obtain ⟨r, s1, s1', hr, hr', hs⟩ := h.read
      unfold itemsEvents
      rw [hr, hr']
      cases r with
      | zero | minusOne => rfl
      | one chr => simp only [ih.items _ _ _ hs, ih.item _ _ _ hs]
    case item =>
      intro k acc chr s s' h
      have hm := (blind fuel).member k chr h
      unfold itemEvents
      rw [ih.member k chr h]
      generalize Reader.member fuel k chr s = x at hm ⊢
      generalize Reader.member fuel k chr s' = x' at hm ⊢
      cases hm with
      | ok x h => simp only [ih.items _ _ _ h]
      | fail | timeout => rfl
    case member =>
      intro k chr s s' h
      cases k with
      | arr => exact ih.value chr h
      | obj => exact ih.property chr h
    case property =>
      intro chr s s' h
      have hq := quoted_alike h
      unfold propertyEvents
      rw [quotedRequests_alike h]
      generalize quoted s = x at hq ⊢
      generalize quoted s' = x' at hq ⊢
      cases hq with
      | ok label h => simp only [ih.afterLabel _ h]
      | fail | timeout => rfl
    case afterLabel =>
      intro past s s' h
      obtain ⟨r, s1, s1', hr, hr', hs⟩ := h.read
      unfold afterLabelEvents
      rw [hr, hr']
      cases r with
      | zero | minusOne => rfl
      | one chr =>
        have hv := (blind fuel).value chr hs
        simp only [ih.afterLabel _ hs, ih.value chr hs]
        generalize Reader.value fuel chr s1 = x at hv ⊢
        generalize Reader.value fuel chr s1' = x' at hv ⊢
        cases hv <;> rfl

end Reader

/-- **The events of a value do not depend on the record.** -/
theorem valueEvents_record (fuel : Nat) (chr : UInt8) (s : Src) (pe : JdParseError) :
    Reader.valueEvents fuel chr { s with pe := pe } = Reader.valueEvents fuel chr s :=
  (Reader.blindEvents fuel).value chr ⟨pe, rfl⟩

theorem valueRequests_record (fuel : Nat) (chr : UInt8) (s : Src) (pe : JdParseError) :
    Reader.valueRequests fuel chr { s with pe := pe } = Reader.valueRequests fuel chr s := by
  rw [← (sameRequests fuel).value, valueEvents_record, (sameRequests fuel).value]

end JsonDom
