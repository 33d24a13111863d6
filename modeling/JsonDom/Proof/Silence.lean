import JsonDom.Proof.Acts
import JsonDom.Proof.Sound
import JsonDom.Proof.ReadString
import JsonDom.Spec.Reports

/-!
# Reports and requests

How `silent` goes on behind a part of the events, with all of its requests granted (`silent_granted`) or
one of them refused (`silent_refused`), and what the reader has reported behind a value
(`value_reported`): a message is there if there was one before or a collection has ended.
-/

namespace JsonDom

open Reader

variable {oracle : Nat → Bool} {n : Nat} {es es' : List Event}

/-! ## Parts of the events -/

theorem silent_granted (h : Granted oracle n (requestsOf es).length) : silent oracle n (es ++ es') = true ↔
    Event.ended ∉ es ∧ silent oracle (n + (requestsOf es).length) es' = true := by
  induction es generalizing n with
  | nil => simp
  | cons e es ih =>
    cases e with
    | ended => simp [silent]
    | asks r =>
      have hfirst : oracle n = true := h 0 (Nat.succ_pos _)
      have hrest : Granted oracle (n + 1) (requestsOf es).length := fun i hi => by
        have := h (i + 1) (Nat.succ_lt_succ hi)
        rwa [← Nat.add_assoc, Nat.add_right_comm] at this
      rw [List.cons_append, silent, if_pos hfirst, ih hrest, requestsOf_asks, List.length_cons,
        Nat.add_assoc, Nat.add_comm 1]
      simp

theorem silent_refused (h : ∃ k < (requestsOf es).length, oracle (n + k) = false) :
    silent oracle n (es ++ es') = silent oracle n es := by
  induction es generalizing n with
  | nil =>
    obtain ⟨k, hk, -⟩ := h
    cases hk
  | cons e es ih =>
    cases e with
    | ended => rfl
    | asks r =>
      rw [List.cons_append, silent, silent]
      cases ho : oracle n with
      | false => rfl
      | true =>
        obtain ⟨k, hk, hno⟩ := h
        cases k with
        | zero => cases ho.symm.trans hno
        | succ k =>
          refine ih ⟨k, Nat.lt_of_succ_lt_succ hk, ?_⟩
          rwa [Nat.add_assoc, Nat.add_comm 1]

/-- Nothing is reported of the requests of a lexeme. -/
theorem silent_lexeme {rs : List Request} (h : Request.collection ∉ rs) :
    silent oracle n (rs.map .asks) = true := by
  induction rs generalizing n with
  | nil => rfl
  | cons r rs ih =>
    rw [List.mem_cons, not_or] at h
    rw [List.map_cons, silent, ih h.2]
    split
    · rfl
    · exact bne_iff_ne.2 (Ne.symm h.1)

theorem ended_lexeme (rs : List Request) : Event.ended ∉ rs.map Event.asks := by simp

theorem leaf_collection (n : Nat) : Request.collection ∉ leafRequests n := fun h => by
  cases List.eq_of_mem_replicate h

theorem quoted_collection (s : Src) : Request.collection ∉ quotedRequests s := by
  unfold quotedRequests
  split
  · simp [leaf_collection]
  · exact leaf_collection _

theorem bare_collection (s : Src) : Request.collection ∉ bareRequests s := by
  unfold bareRequests
  split <;> simp [leaf_collection]

theorem scalar_collection (chr : UInt8) (s : Src) : Request.collection ∉ scalarRequests chr s := by
  have hcopy : ∀ J, Request.collection ∉ copyRequests J := fun J => by cases J <;> simp [copyRequests]
  unfold scalarRequests
  split <;> split <;> simp [quoted_collection, bare_collection, hcopy]

theorem Reader.itemsEvents_one {fuel : Nat} {k : Kind} {acc : List (Bytes × Json)} {needs : Bool} {chr : UInt8}
    {s s' : Src} (hr : s.read = (.one chr, s')) :
    itemsEvents (fuel + 1) k acc needs s = (loopAct k (acc ≠ []) needs chr).elim
      (fun needs => itemsEvents fuel k acc needs s') (itemEvents fuel k acc chr s') [.ended] fun _ => [] := by
  rw [loopAct_elim, itemsEvents, hr]
  by_cases hacc : acc = [] <;> simp [hacc]

/-! ## The reader's reports -/

/-- Members are read up to the end of their collection. -/
theorem items_ended (fuel : Nat) :
    (∀ k acc needs s ms s', items fuel k acc needs s = .ok ms s' → Event.ended ∈ itemsEvents fuel k acc needs s) ∧
    ∀ k acc chr s ms s', item fuel k acc chr s = .ok ms s' → Event.ended ∈ itemEvents fuel k acc chr s := by
  induction fuel with
  | zero => exact ⟨fun _ _ _ _ _ _ h => (by cases h), fun _ _ _ _ _ _ h => (by cases h)⟩
  | succ fuel ih =>
    obtain ⟨ihItems, ihItem⟩ := ih
    constructor
    · intro k acc needs s ms s' h
      unfold items at h
      unfold itemsEvents
      rcases hr : s.read with ⟨b | _ | _, s1⟩ <;> simp only [hr] at h ⊢
      · split_ifs at h ⊢ <;>
          first | exact ihItems _ _ _ _ _ _ h | exact ihItem _ _ _ _ _ _ h | exact List.mem_cons_self | cases h
      · cases h
      · cases h
    · intro k acc chr s ms s' h
      unfold item at h
      unfold itemEvents
      obtain ⟨⟨x, stop⟩, s1, hm, h⟩ := Out.bind_eq_ok h
      rw [hm]
      refine List.mem_append_right _ ?_
      dsimp only at h ⊢
      split_ifs at h ⊢ <;> first | exact ihItems _ _ _ _ _ _ h | exact List.mem_cons_self | cases h

/-- **What has been reported behind a value**: that a collection has ended, if one has. -/
theorem value_reported {fuel : Nat} {chr : UInt8} {s s' : Src} {r : Json × Option UInt8}
    (h : value fuel chr s = .ok r s') :
    s'.pe.message = none ↔ s.pe.message = none ∧ Event.ended ∉ valueEvents fuel chr s := by
  cases fuel with
  | zero => cases h
  | succ fuel =>
    unfold value at h
    unfold valueEvents
    obtain ⟨b, s1, hb, h⟩ := Out.bind_eq_ok h
    obtain ⟨-, hpe, -⟩ := blanks_sound hb
    rw [hb, ← hpe]
    have hcoll : ∀ k, ((collection fuel k s1).bind fun J s => .ok (J, none) s) = .ok r s' →
        (s'.pe.message = none ↔ s1.pe.message = none ∧ Event.ended ∉ collectionEvents fuel k s1) := by
      intro k h
      obtain ⟨J, s2, hc, h⟩ := Out.bind_eq_ok h
      cases h
      cases fuel with
      | zero => cases hc
      | succ fuel =>
        unfold collection at hc
        unfold collectionEvents
        obtain ⟨ms, s3, hi, hc⟩ := Out.bind_eq_ok hc
        cases hc
        refine iff_of_false (Option.some_ne_none _) fun hn => hn.2 ?_
        exact List.mem_cons_of_mem _ ((items_ended fuel).1 _ _ _ _ _ _ hi)
    dsimp only at h ⊢
    split at h
    · next h1 =>
      rw [if_pos h1]
      exact hcoll .arr h
    next h1 =>
    rw [if_neg h1]
    split at h
    · next h2 =>
      rw [if_pos h2]
      exact hcoll .obj h
    next h2 =>
    rw [if_neg h2]
    obtain ⟨⟨J, e⟩, s2, hs, h⟩ := Out.bind_eq_ok h
    cases h
    obtain ⟨hpe', -⟩ := scalar_sound hs
    rw [hpe']
    exact (and_iff_left (ended_lexeme _)).symm

/-- The same behind a member. -/
theorem afterLabel_reported {fuel : Nat} {past : Bool} {s s' : Src} {r : Json × Option UInt8}
    (h : afterLabel fuel past s = .ok r s') :
    s'.pe.message = none ↔ s.pe.message = none ∧ Event.ended ∉ afterLabelEvents fuel past s := by
  induction fuel generalizing past s with
  | zero => cases h
  | succ fuel ih =>
    unfold afterLabel at h
    unfold afterLabelEvents
    rcases hr : s.read with ⟨b | _ | _, s1⟩ <;> simp only [hr] at h ⊢
    · have hpe : s1.pe = s.pe := (read_one hr).2
      rw [← hpe]
      split_ifs at h ⊢
      · exact ih h
      · exact ih h
      · rw [value_reported h, h]
        simp
      · cases h
    · cases h
    · cases h

theorem member_reported {fuel : Nat} {k : Kind} {chr : UInt8} {s s' : Src} {r : (Bytes × Json) × Option UInt8}
    (h : member fuel k chr s = .ok r s') :
    s'.pe.message = none ↔ s.pe.message = none ∧ Event.ended ∉ memberEvents fuel k chr s := by
  cases fuel with
  | zero => cases h
  | succ fuel =>
    cases k with
    | arr =>
      unfold member at h
      unfold memberEvents
      obtain ⟨⟨J, e⟩, s1, hv, h⟩ := Out.bind_eq_ok h
      cases h
      exact value_reported hv
    | obj =>
      unfold member at h
      unfold memberEvents
      cases fuel with
      | zero => cases h
      | succ fuel =>
        unfold property at h
        unfold propertyEvents
        split at h
        · cases h
        next hq =>
        rw [if_neg hq]
        obtain ⟨label, s1, hl, h⟩ := Out.bind_eq_ok h
        obtain ⟨⟨J, e⟩, s2, ha, h⟩ := Out.bind_eq_ok h
        cases h
        have hpe : s1.pe = s.pe := (quoted_sound hl).2.2
        rw [hl, afterLabel_reported ha, hpe]
        simp

end JsonDom
