import JsonDom.Doc.Errors

/-!
# The location of an error

`report_parse_error` asks for the position in the file when the byte that made the check fail has been
read, so the location in the record is always one behind that byte (`not_located`).
-/

namespace JsonDom

open Reader

variable {w w' : World} {s s1 s' : Src} {used : Bytes} {fuel : Nat}

/-- Reading that starts at `s` comes to `x` behind some bytes, and the position there is in the report
of a check that fails. -/
def Locates {α : Type} (s : Src) : Out α → Prop
  | .ok _ s' => ∃ used, Ate s used s'
  | .fail c s' => ∃ used, Ate s used s' ∧ (s.ending = .eof → s'.pe = c.report s'.offset)
  | .timeout => True

namespace Locates

variable {α β : Type}

theorem behind {x : Out α} (h : Ate s used s1) (hx : Locates s1 x) : Locates s x := by
  cases x with
  | ok a s' =>
    obtain ⟨u, hu⟩ := hx
    exact ⟨used ++ u, h.trans hu⟩
  | fail c s' =>
    obtain ⟨u, hu, hpe⟩ := hx
    exact ⟨used ++ u, h.trans hu, fun he => hpe (h.ending.trans he)⟩
  | timeout => trivial

theorem bind {x : Out α} {f : α → Src → Out β} (hx : Locates s x) (hf : ∀ a s1, Locates s1 (f a s1)) :
    Locates s (x.bind f) := by
  cases x with
  | ok a s1 =>
    obtain ⟨u, hu⟩ := hx
    exact (hf a s1).behind hu
  | fail => exact hx
  | timeout => trivial

theorem ok (a : α) (s : Src) : Locates s (.ok a s) := ⟨[], .refl s⟩

theorem fail {c : Check} (hm : c.message ≠ none) : Locates s (s.fail c : Out α) := by
  obtain ⟨m, hm⟩ := Option.ne_none_iff_exists'.1 hm
  unfold Src.fail Locates
  rw [hm]
  refine ⟨[], (Ate.refl s).report m, fun _ => ?_⟩
  rw [Check.report, hm]
  rfl

end Locates

theorem read_ate {r : ReadRes} (h : s.read = (r, s1)) : ∃ used, Ate s used s1 := by
  cases r with
  | one b => exact ⟨[b], (read_one h).1⟩
  | zero => exact ⟨[], (read_zero h).1 ▸ .refl s⟩
  | minusOne => exact ⟨[], (read_minusOne h).1 ▸ .refl s⟩

theorem Locates.read {α : Type} {x : Out α} {r : ReadRes} (hr : s.read = (r, s1)) (hx : Locates s1 x) :
    Locates s x := by
  obtain ⟨used, hate⟩ := read_ate hr
  exact hx.behind hate

theorem Locates.lex {α : Type} {x : Out α} {stop : UInt8 → Bool} {r : Bytes × Option UInt8}
    (hl : s.lex stop = (r, s1)) (hx : Locates s1 x) : Locates s x := by
  obtain ⟨used, hate, -⟩ := lexSrc_ate hl
  exact hx.behind hate

theorem quoted_locates (s : Src) : Locates s (quoted s) := by
  unfold quoted
  split
  · next t b s1 hl => exact .lex hl (.ok t s1)
  · next t s1 hl => exact .lex hl (.fail (Option.some_ne_none _))

theorem scalar_locates (chr : UInt8) (s : Src) : Locates s (scalar chr s) := by
  unfold scalar
  split
  · exact (quoted_locates s).bind fun t s1 => .ok _ s1
  · split
    next t stop s1 hl =>
    apply Locates.lex hl
    split
    · exact .ok _ s1
    · next c hu => exact .fail (Scan.unquoted_message hu)

theorem blanks_locates (fuel : Nat) (chr : UInt8) (s : Src) : Locates s (blanks fuel chr s) := by
  induction fuel generalizing chr s with
  | zero => trivial
  | succ fuel ih =>
    unfold blanks
    split
    · split
      · next b s1 hr => exact .read hr (ih b s1)
      · next s1 hr => exact .read hr (.fail (Option.some_ne_none _))
      · next s1 hr => exact .read hr (ih chr s1)
    · exact .ok chr s

/-- The functions of the reader with this much fuel. -/
structure ReaderLocates (fuel : Nat) : Prop where
  value (chr : UInt8) (s : Src) : Locates s (value fuel chr s)
  collection (k : Kind) (s : Src) : Locates s (collection fuel k s)
  items (k : Kind) (acc : List (Bytes × Json)) (needs : Bool) (s : Src) : Locates s (items fuel k acc needs s)
  item (k : Kind) (acc : List (Bytes × Json)) (chr : UInt8) (s : Src) : Locates s (item fuel k acc chr s)
  member (k : Kind) (chr : UInt8) (s : Src) : Locates s (member fuel k chr s)
  property (chr : UInt8) (s : Src) : Locates s (property fuel chr s)
  afterLabel (past : Bool) (s : Src) : Locates s (afterLabel fuel past s)

section Step

variable (ih : ReaderLocates fuel)
include ih

theorem value_locates (chr : UInt8) (s : Src) : Locates s (value (fuel + 1) chr s) := by
  unfold value
  refine (blanks_locates fuel _ s).bind fun b s1 => ?_
  dsimp only
  split
  · exact (ih.collection .arr s1).bind fun J s2 => .ok _ s2
  split
  · exact (ih.collection .obj s1).bind fun J s2 => .ok _ s2
  · exact (scalar_locates b s1).bind fun J s2 => .ok _ s2

theorem collection_locates (k : Kind) (s : Src) : Locates s (collection (fuel + 1) k s) := by
  unfold collection
  refine (ih.items k [] false s).bind fun ms s1 => ⟨[], ?_⟩
  exact (Ate.refl s1).report _

theorem items_locates (k : Kind) (acc : List (Bytes × Json)) (needs : Bool) (s : Src) :
    Locates s (items (fuel + 1) k acc needs s) := by
  unfold items
  split
  · next chr s1 hr =>
    apply Locates.read hr
    split
    · exact ih.items k acc needs s1
    split
    · split
      · exact .fail (Option.some_ne_none _)
      · exact ih.item k acc chr s1
    split
    · exact .ok acc s1
    split
    · exact .fail (Option.some_ne_none _)
    split
    · split
      · exact .fail (Option.some_ne_none _)
      · exact ih.items k acc true s1
    split
    · exact .fail (Option.some_ne_none _)
    · exact ih.item k acc chr s1
  · next r s1 hnone hr => exact .read hr (.fail (Option.some_ne_none _))

theorem item_locates (k : Kind) (acc : List (Bytes × Json)) (chr : UInt8) (s : Src) :
    Locates s (item (fuel + 1) k acc chr s) := by
  unfold item
  refine (ih.member k chr s).bind fun x s1 => ?_
  dsimp only
  split
  · exact ih.items _ _ _ s1
  split
  · exact .ok _ s1
  split
  · exact ih.items _ _ _ s1
  · exact .fail (Option.some_ne_none _)

theorem member_locates (k : Kind) (chr : UInt8) (s : Src) : Locates s (member (fuel + 1) k chr s) := by
  cases k with
  | arr =>
    unfold member
    exact (ih.value chr s).bind fun x s1 => .ok _ s1
  | obj =>
    unfold member
    exact ih.property chr s

theorem property_locates (chr : UInt8) (s : Src) : Locates s (property (fuel + 1) chr s) := by
  unfold property
  split
  · exact .fail (Option.some_ne_none _)
  · exact (quoted_locates s).bind fun label s1 => (ih.afterLabel false s1).bind fun x s2 => .ok _ s2

theorem afterLabel_locates (past : Bool) (s : Src) : Locates s (afterLabel (fuel + 1) past s) := by
  unfold afterLabel
  split
  · next chr s1 hr =>
    apply Locates.read hr
    split
    · exact ih.afterLabel past s1
    split
    · exact ih.afterLabel true s1
    split
    · exact ih.value chr s1
    · exact .fail (Option.some_ne_none _)
  · next s1 hr => exact .read hr (.fail (Option.some_ne_none _))
  · next s1 hr =>
    -- the one check without a report, at a read error
    obtain ⟨rfl, -, he⟩ := read_minusOne hr
    exact ⟨[], .refl _, fun heof => by cases he.symm.trans heof⟩

end Step

theorem reader_locates (fuel : Nat) : ReaderLocates fuel := by
  induction fuel with
  | zero =>
    constructor
    case member => intro k; cases k <;> exact fun _ _ => trivial
    all_goals
      intros
      trivial
  | succ fuel ih =>
    exact {
      value := value_locates ih
      collection := collection_locates ih
      items := items_locates ih
      item := item_locates ih
      member := member_locates ih
      property := property_locates ih
      afterLabel := afterLabel_locates ih }

theorem tail_used (input : Bytes) (offset : Nat) : ∃ used, input = used ++ (tail input offset).2.1 ∧
    (tail input offset).2.2 = offset + used.length := by
  induction input generalizing offset with
  | nil => exact ⟨[], rfl, rfl⟩
  | cons b bs ih =>
    rw [tail]
    split
    · obtain ⟨used, hi, ho⟩ := ih (offset + 1)
      refine ⟨b :: used, congrArg _ hi, ho.trans ?_⟩
      rw [List.length_cons]
      omega
    · exact ⟨[b], rfl, rfl⟩

theorem file_locates (fuel : Nat) (s : Src) : Locates s (file fuel s) := by
  unfold file
  refine ((reader_locates fuel).value 0 s).bind fun x s1 => ?_
  obtain ⟨used, hi, ho⟩ := tail_used s1.input s1.offset
  dsimp only
  split
  · next input offset ht =>
    rw [ht] at hi ho
    exact ⟨used, hi, ho, rfl⟩
  · next input offset ht =>
    rw [ht] at hi ho
    have hate : Ate s1 used { s1 with input, offset } := ⟨hi, ho, rfl⟩
    exact Locates.behind hate (.fail (Option.some_ne_none _))

/-! ## The record -/

/-- The location in the record behind the call is that of the last byte it read. -/
def Located (w w' : World) : Prop :=
  ∃ pre b, w.input = pre ++ b :: w'.input ∧ w'.pe.charLoc = w.offset + pre.length

/-- The location is behind everything that was read. -/
theorem location_behind {p : Ptr} (hw : w.Ample) (he : w.ending = .eof)
    (hlen : ((w.offset + w.input.length : Nat) : Int) ≤ intMax) (hret : Returns w (false, p) w') :
    ∃ used, w.input = used ++ w'.input ∧ w'.pe.charLoc = w.offset + used.length := by
  obtain ⟨fuel, h⟩ := returns_iff.1 hret
  have hrun := parseFile_run fuel (hw.grants _)
  have hloc := file_locates fuel w.toSrc
  cases ho : Reader.file fuel w.toSrc with
  | timeout =>
    rw [ho] at hrun
    exact absurd (h.symm.trans hrun) (by simp)
  | ok J s =>
    rw [ho] at hrun
    obtain ⟨t, w1, hrun, -⟩ := hrun
    cases h.symm.trans hrun
  | fail c s =>
    rw [ho] at hrun hloc
    obtain ⟨w1, hrun, -, hsrc, -⟩ := hrun
    cases h.symm.trans hrun
    obtain ⟨used, hate, hpe⟩ := hloc
    subst hsrc
    refine ⟨used, hate.input, ?_⟩
    have hused : used.length ≤ w.input.length := by
      rw [hate.input, List.length_append]
      exact Nat.le_add_right _ _
    have hsmall : w.offset + used.length ≤ 2147483647 := by
      unfold intMax at hlen
      omega
    have hnat : (BitVec.ofNat 32 (w.offset + used.length)).toNat = w.offset + used.length := by
      rw [BitVec.toNat_ofNat]
      exact Nat.mod_eq_of_lt (Nat.lt_of_le_of_lt hsmall (by decide))
    rw [hpe he, Check.report, hate.offset]
    dsimp only
    rw [BitVec.toInt_eq_toNat_of_lt, hnat, Int.natCast_add]
    rw [hnat]
    omega

/-- **The location is never that of the last byte read.** -/
theorem not_located {p : Ptr} (hw : w.Ample) (he : w.ending = .eof)
    (hlen : ((w.offset + w.input.length : Nat) : Int) ≤ intMax) (hret : Returns w (false, p) w') :
    ¬ Located w w' := by
  obtain ⟨used, hi, hloc⟩ := location_behind hw he hlen hret
  rintro ⟨pre, b, hi', hloc'⟩
  have hlength : used.length = pre.length + 1 := by
    have h := congrArg List.length (hi.symm.trans hi')
    simp only [List.length_append, List.length_cons] at h
    omega
  omega

theorem fails_returns (h : endsIn (jdParseFile fuel w) (fun r _ => !r.1) = true) :
    ∃ p w', Returns w (false, p) w' := by
  obtain ⟨⟨ok, p⟩, w', hrun, hq⟩ := endsIn_run h
  cases ok with
  | true => cases hq
  | false => exact ⟨p, w', returns_iff.2 ⟨fuel, hrun⟩⟩

theorem not_located_label : ∃ p w', Returns (World.start (cs "\x7b1\x7d") .eof) (false, p) w' ∧
    ¬ Located (World.start (cs "\x7b1\x7d") .eof) w' := by
  obtain ⟨p, w', h⟩ := @fails_returns (World.start (cs "\x7b1\x7d") .eof) 20 (by decide +kernel)
  exact ⟨p, w', h, not_located (start_ample _ _) rfl (by decide) h⟩

/-- The comma of `[,]` is at 1 and reported at 2. -/
theorem comma_not_located : ∃ p w', Returns (World.start (cs "[,]") .eof) (false, p) w' ∧
    ¬ Located (World.start (cs "[,]") .eof) w' := by
  have hrun : endsIn (jdParseFile 20 (World.start (cs "[,]") .eof)) (fun r w' =>
      !r.1 && (w'.input == [93] && w'.pe.charLoc == 2)) = true := by decide +kernel
  obtain ⟨⟨ok, p⟩, w', hrun, hq⟩ := endsIn_run hrun
  simp only [Bool.and_eq_true, Bool.not_eq_true', beq_iff_eq] at hq
  obtain ⟨rfl, hinput, hloc⟩ := hq
  refine ⟨p, w', returns_iff.2 ⟨20, hrun⟩, ?_⟩
  rintro ⟨pre, b, hi, hc⟩
  have hlength := congrArg List.length hi
  rw [hinput, List.length_append, show (World.start (cs "[,]") .eof).input.length = 3 from rfl] at hlength
  dsimp only [List.length_cons, List.length_nil] at hlength
  have hstart : (World.start (cs "[,]") .eof).offset = 0 := rfl
  omega

end JsonDom
