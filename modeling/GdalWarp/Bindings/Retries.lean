import GdalWarp.Foundation.Buffer
import GdalWarp.Bindings.StringBuffers

namespace GdalWarp.Bindings

open Foundation

/-- What the native query comes to at each turn: the code that `DOIT` returns, and
what it has found. -/
abbrev Query (α : Type) := ℕ → ℤ × Option α

def matrices : Buffers (List Row) := ⟨List.length, blankMatrix, fun _ ↦ List.length_replicate⟩

def lines : Buffers Row :=
  ⟨List.length, fun len ↦ List.replicate len 0, fun _ ↦ List.length_replicate⟩

/-- A turn of the Java methods: the native call, and the reading of what it has left.
There is no outcome where it says that the array is too small. -/
def metadataAttempt {α β : Type} (native : ℤ → Option α → β → Option (β × ℤ))
    (decode : β → β → Option (List String)) (query : Query α) (turn : ℕ) (b : β) :
    Option MetadataOutcome × β :=
  match native (query turn).1 (query turn).2 b with
  | none => (some .overrun, b)
  | some (filled, retval) =>
    if retval ≥ 0 then
      match decode b filled with
      | none => (some .thrown, filled)
      | some strings => (some (.delivered strings), filled)
    else if retval = -1 then (none, filled)
    else (some (.failed retval), filled)

section Methods

variable (malformed : List UInt8 → String)

def listAttempt (method : MetadataMethod) :=
  metadataAttempt method.native fun rows filled ↦ decodeRows malformed rows.length filled

def itemAttempt :=
  metadataAttempt jniGetMetadataItem fun line bytes ↦
    (scanRow line.length bytes).map fun text ↦ [trim (newString malformed text)]

/-- `get_metadata_domain_list` and `get_metadata`. -/
def fetchLists (method : MetadataMethod) (query : Query (List CString)) (rows : List Row) :
    MetadataOutcome × List Row :=
  matrices.retry (2 ^ 31) .thrown (listAttempt malformed method query) 0 rows

/-- `get_metadata_item`. -/
def fetchItem (query : Query CString) (line : Row) : MetadataOutcome × Row :=
  lines.retry (2 ^ 31) .thrown (itemAttempt malformed query) 0 line

end Methods

section Attempt

variable {α β : Type} {native : ℤ → Option α → β → Option (β × ℤ)}
  {decode : β → β → Option (List String)} {query : Query α} {turn : ℕ} {b filled : β} {retval : ℤ}

theorem attempt_overrun (h : native (query turn).1 (query turn).2 b = none) :
    metadataAttempt native decode query turn b = (some .overrun, b) := by
  rw [metadataAttempt, h]

theorem attempt_again (h : native (query turn).1 (query turn).2 b = some (filled, -1)) :
    metadataAttempt native decode query turn b = (none, filled) := by
  rw [metadataAttempt, h]
  rfl

variable (h : native (query turn).1 (query turn).2 b = some (filled, retval))

include h

theorem attempt_failed (hneg : retval < 0) (hone : retval ≠ -1) :
    metadataAttempt native decode query turn b = (some (.failed retval), filled) := by
  rw [metadataAttempt, h]
  dsimp only
  rw [if_neg (not_le.mpr hneg), if_neg hone]

theorem attempt_delivered (hretval : 0 ≤ retval) {strings : List String}
    (hdecode : decode b filled = some strings) :
    metadataAttempt native decode query turn b = (some (.delivered strings), filled) := by
  rw [metadataAttempt, h]
  dsimp only
  rw [if_pos hretval, hdecode]

theorem attempt_thrown (hretval : 0 ≤ retval) (hdecode : decode b filled = none) :
    metadataAttempt native decode query turn b = (some .thrown, filled) := by
  rw [metadataAttempt, h]
  dsimp only
  rw [if_pos hretval, hdecode]

end Attempt

theorem fetchList_eq (malformed : List UInt8 → String) (call : MetadataCall) (turn : ℕ)
    (rows : List Row) :
    fetchList malformed call turn rows = matrices.retry (2 ^ 31) .thrown
      (listAttempt malformed call.method fun turn ↦
        (call.attempts turn, call.list.map (List.map Entry.cString))) turn rows := by
  fun_induction fetchList malformed call turn rows with
  | case1 turn rows hnative => exact (Buffers.retry_done (attempt_overrun hnative)).symm
  | case2 turn rows filled retval hnative hretval hdecode =>
    exact (Buffers.retry_done (attempt_thrown hnative hretval hdecode)).symm
  | case3 turn rows filled retval hnative hretval strings hdecode =>
    exact (Buffers.retry_done (attempt_delivered hnative hretval hdecode)).symm
  | case4 turn rows filled hgrow hnative hretval ih =>
    exact ih.trans (Buffers.retry_again (attempt_again hnative) hgrow).symm
  | case5 turn rows filled hgrow hnative hretval =>
    exact (Buffers.retry_overflow (attempt_again hnative) hgrow).symm
  | case6 turn rows filled retval hnative hretval hother =>
    exact (Buffers.retry_done (attempt_failed hnative (not_le.mp hretval) hother)).symm

/-- A call that may retry: the codes of its native queries, the size of its array
before and after, and what it came to. -/
structure Retried where
  codes : ℕ → ℤ
  before : ℕ
  outcome : MetadataOutcome
  after : ℕ

/-- It has returned at some turn: no query before has failed, and if that turn's
has, its code is what was returned. The array has grown at the turns before. -/
def Retried.Returned (c : Retried) : Prop :=
  ∃ k, (∀ j < k, 0 ≤ c.codes j) ∧ c.after = c.before * 2 ^ k ∧
    (c.codes k < 0 ∧ c.outcome = .failed (c.codes k) ∨
      0 ≤ c.codes k ∧ ∃ strings, c.outcome = .delivered strings)

/-- A size at some turn: there the query comes to an end, and at the turns before
the array is too small for what it has found. -/
def Retryable (settles tooSmall : ℕ → ℕ → Prop) (turn n : ℕ) : Prop :=
  ∃ k, n * 2 ^ k < 2 ^ 31 ∧ (∀ j < k, tooSmall (turn + j) (n * 2 ^ j)) ∧
    settles (turn + k) (n * 2 ^ k)

theorem Retried.returned_succ_iff {codes : ℕ → ℤ} {n m k : ℕ} {outcome : MetadataOutcome}
    (hn : n ≠ 0) (hm : m = n * 2 * 2 ^ k) :
    Returned ⟨codes, n, outcome, m⟩ ↔
      0 ≤ codes 0 ∧ Returned ⟨fun j ↦ codes (j + 1), n * 2, outcome, m⟩ := by
  constructor
  · rintro ⟨k', hearlier, hsize, hlast⟩
    cases k' with
    | zero =>
      have hlt : n * 1 < n * (2 * 2 ^ k) :=
        Nat.mul_lt_mul_of_pos_left (by have := Nat.one_le_two_pow (n := k); omega) (by omega)
      have hsize : m = n * 2 ^ 0 := hsize
      rw [hm, Nat.mul_assoc] at hsize
      omega
    | succ k' =>
      refine ⟨hearlier 0 (by omega), k', fun j hj ↦ hearlier (j + 1) (by omega), ?_, hlast⟩
      rw [Nat.mul_assoc, ← Nat.pow_succ']
      exact hsize
  · rintro ⟨hfirst, k', hearlier, hsize, hlast⟩
    refine ⟨k' + 1, fun j hj ↦ ?_, ?_, hlast⟩
    · cases j with
      | zero => exact hfirst
      | succ j => exact hearlier j (by omega)
    · rw [Nat.pow_succ', ← Nat.mul_assoc]
      exact hsize

theorem retryable_succ_iff {settles tooSmall : ℕ → ℕ → Prop} {turn n : ℕ}
    (hsettles : ¬ settles turn n) :
    Retryable settles tooSmall turn n ↔
      tooSmall turn n ∧ Retryable settles tooSmall (turn + 1) (n * 2) := by
  have hsize (k : ℕ) : n * 2 ^ (k + 1) = n * 2 * 2 ^ k := by rw [Nat.pow_succ', Nat.mul_assoc]
  have hturn (k : ℕ) : turn + (k + 1) = turn + 1 + k := by omega
  constructor
  · rintro ⟨k, hlimit, hearlier, hlast⟩
    cases k with
    | zero => exact absurd (by simpa using hlast) hsettles
    | succ k =>
      refine ⟨by simpa using hearlier 0 (by omega), k, hsize k ▸ hlimit, fun j hj ↦ ?_, ?_⟩
      · exact hturn j ▸ hsize j ▸ hearlier (j + 1) (by omega)
      · exact hturn k ▸ hsize k ▸ hlast
  · rintro ⟨hfirst, k, hlimit, hearlier, hlast⟩
    refine ⟨k + 1, (hsize k).symm ▸ hlimit, fun j hj ↦ ?_, ?_⟩
    · cases j with
      | zero => simpa using hfirst
      | succ j => exact (hturn j).symm ▸ (hsize j).symm ▸ hearlier j (by omega)
    · exact (hturn k).symm ▸ (hsize k).symm ▸ hlast

inductive TurnKind {β : Type} (B : Buffers β) (I : β → Prop) (settles tooSmall : ℕ → ℕ → Prop)
    (codes : ℕ → ℤ) (attempt : ℕ → β → Option MetadataOutcome × β) (turn : ℕ) (b : β) : Prop
  | settled {r : MetadataOutcome} {left : β} (h : attempt turn b = (some r, left))
      (hsettles : settles turn (B.size b)) (hsize : B.size left = B.size b) (hleft : I left)
      (hr : codes turn < 0 ∧ r = .failed (codes turn) ∨
        0 ≤ codes turn ∧ ∃ strings, r = .delivered strings)
  | small {left : β} (h : attempt turn b = (none, left)) (hsmall : tooSmall turn (B.size b))
      (hcode : 0 ≤ codes turn) (hsettles : ¬ settles turn (B.size b))
  | lost {r : MetadataOutcome} {left : β} (h : attempt turn b = (some r, left))
      (hsettles : ¬ settles turn (B.size b)) (hsmall : ¬ tooSmall turn (B.size b))
      (hr : r = .thrown ∨ r = .overrun)
  | mistaken {left : β} (h : attempt turn b = (none, left)) (hcode : codes turn < 0)
      (hsettles : ¬ settles turn (B.size b)) (hsmall : ¬ tooSmall turn (B.size b))

section Retry

variable {β : Type} {B : Buffers β} {I : β → Prop} {settles tooSmall : ℕ → ℕ → Prop} {codes : ℕ → ℤ}
  {attempt : ℕ → β → Option MetadataOutcome × β}

theorem Retried.not_returned {codes : ℕ → ℤ} {n m : ℕ} {outcome : MetadataOutcome}
    (h : outcome = .thrown ∨ outcome = .overrun) : ¬ Returned ⟨codes, n, outcome, m⟩ := by
  rintro ⟨k, -, -, ⟨-, heq⟩ | ⟨-, strings, heq⟩⟩ <;> rcases h with rfl | rfl <;> cases heq

theorem retryable_overflow {turn n : ℕ} (hlimit : ¬ n * 2 < 2 ^ 31)
    (hsettles : ¬ settles turn n) : ¬ Retryable settles tooSmall turn n := by
  intro h
  obtain ⟨-, k, hk, -⟩ := (retryable_succ_iff hsettles).mp h
  have hle : n * 2 ≤ n * 2 * 2 ^ k := Nat.le_mul_of_pos_right _ (Nat.two_pow_pos k)
  omega

variable (B I settles tooSmall codes) in
/-- A loop from this turn on either breaks or leaves a buffer to go on with, and it
returns properly exactly if a turn comes at which its query ends in time. -/
structure EndsAs (turn : ℕ) (b : β) (result : MetadataOutcome × β) : Prop where
  left : (result.1 = .thrown ∨ result.1 = .overrun) ∨
    I result.2 ∧ ∃ k, B.size result.2 = B.size b * 2 ^ k
  returned : Retried.Returned ⟨fun j ↦ codes (turn + j), B.size b, result.1, B.size result.2⟩ ↔
    Retryable settles tooSmall turn (B.size b)

section Turn

variable {turn : ℕ} {b left : β} (hturn : TurnKind B I settles tooSmall codes attempt turn b)
  (hsize : B.size b ≠ 0 ∧ B.size b < 2 ^ 31)

include hturn hsize

theorem endsAs_done {r : MetadataOutcome} (hattempt : attempt turn b = (some r, left)) :
    EndsAs B I settles tooSmall codes turn b (r, left) := by
  cases hturn with
  | settled h hsettles hsame hleft hr =>
    cases hattempt.symm.trans h
    refine ⟨Or.inr ⟨hleft, 0, by simpa using hsame⟩, iff_of_true ?_ ?_⟩
    · exact ⟨0, nofun, by simpa using hsame, hr⟩
    · exact ⟨0, by simpa using hsize.2, nofun, by simpa using hsettles⟩
  | small h => cases hattempt.symm.trans h
  | lost h hsettles hsmall hr =>
    cases hattempt.symm.trans h
    refine ⟨Or.inl hr, iff_of_false (Retried.not_returned hr) fun hx ↦ ?_⟩
    exact hsmall ((retryable_succ_iff hsettles).mp hx).1
  | mistaken h => cases hattempt.symm.trans h

theorem endsAs_again {result : MetadataOutcome × β} (hattempt : attempt turn b = (none, left))
    (hrest : EndsAs B I settles tooSmall codes (turn + 1) (B.blank (B.size b * 2)) result) :
    EndsAs B I settles tooSmall codes turn b result := by
  obtain ⟨hends, hiff⟩ := hrest
  rw [B.size_blank] at hends hiff
  have hfirst : ¬ settles turn (B.size b) ∧ (0 ≤ codes turn ↔ tooSmall turn (B.size b)) := by
    cases hturn with
    | settled h => cases hattempt.symm.trans h
    | small h hsmall hcode hsettles => exact ⟨hsettles, iff_of_true hcode hsmall⟩
    | lost h => cases hattempt.symm.trans h
    | mistaken h hcode hsettles hsmall => exact ⟨hsettles, iff_of_false (by omega) hsmall⟩
  have hretryable : Retryable settles tooSmall turn (B.size b) ↔ _ := retryable_succ_iff hfirst.1
  rw [← hfirst.2, ← hiff] at hretryable
  rcases hends with hbad | ⟨hleft, k, hk⟩
  · refine ⟨Or.inl hbad, ?_⟩
    rw [hretryable]
    exact iff_of_false (Retried.not_returned hbad) fun hx ↦ Retried.not_returned hbad hx.2
  · refine ⟨Or.inr ⟨hleft, k + 1, by rw [hk, Nat.pow_succ', Nat.mul_assoc]⟩, ?_⟩
    have hshift : (fun j ↦ codes (turn + 1 + j)) = fun j ↦ codes (turn + (j + 1)) :=
      funext fun j ↦ congrArg codes (by omega)
    rw [hretryable, Retried.returned_succ_iff hsize.1 hk, hshift]
    rfl

theorem endsAs_overflow (hattempt : attempt turn b = (none, left))
    (hgrow : ¬ (B.size b ≠ 0 ∧ B.size b * 2 < 2 ^ 31)) :
    EndsAs B I settles tooSmall codes turn b (.thrown, left) := by
  refine ⟨Or.inl (Or.inl rfl), iff_of_false (Retried.not_returned (Or.inl rfl)) ?_⟩
  have hlimit : ¬ B.size b * 2 < 2 ^ 31 := fun hx ↦ hgrow ⟨hsize.1, hx⟩
  cases hturn with
  | settled h => cases hattempt.symm.trans h
  | small h hsmall hcode hsettles => exact retryable_overflow hlimit hsettles
  | lost h => cases hattempt.symm.trans h
  | mistaken h hcode hsettles hsmall => exact retryable_overflow hlimit hsettles

end Turn

theorem retry_endsAs (hsize : ∀ b, I b → B.size b ≠ 0 ∧ B.size b < 2 ^ 31)
    (hblank : ∀ n, n ≠ 0 ∧ n * 2 < 2 ^ 31 → I (B.blank (n * 2)))
    (hturn : ∀ turn b, I b → TurnKind B I settles tooSmall codes attempt turn b) (turn : ℕ) (b : β)
    (hb : I b) :
    EndsAs B I settles tooSmall codes turn b (B.retry (2 ^ 31) .thrown attempt turn b) := by
  refine Buffers.retry_induction (I := I) (P := EndsAs B I settles tooSmall codes) hblank ?_ ?_ ?_
    turn b hb
  · exact fun turn b r left hb hattempt ↦ endsAs_done (hturn turn b hb) (hsize b hb) hattempt
  · exact fun turn b left result hb hattempt _ hrest ↦
      endsAs_again (hturn turn b hb) (hsize b hb) hattempt hrest
  · exact fun turn b left hb hattempt hgrow ↦
      endsAs_overflow (hturn turn b hb) (hsize b hb) hattempt hgrow

theorem retry_keeps (hsize : ∀ b, I b → B.size b ≠ 0 ∧ B.size b < 2 ^ 31)
    (hblank : ∀ n, n ≠ 0 ∧ n * 2 < 2 ^ 31 → I (B.blank (n * 2)))
    (hturn : ∀ turn b, I b → TurnKind B I settles tooSmall codes attempt turn b) {b : β} (hb : I b)
    {result : MetadataOutcome × β} (hresult : B.retry (2 ^ 31) .thrown attempt 0 b = result) :
    (Retried.Returned ⟨codes, B.size b, result.1, B.size result.2⟩ ↔
      Retryable settles tooSmall 0 (B.size b)) ∧
    (Retried.Returned ⟨codes, B.size b, result.1, B.size result.2⟩ → I result.2) := by
  obtain ⟨hends, hiff⟩ := retry_endsAs hsize hblank hturn 0 b hb
  rw [hresult] at hends hiff
  simp only [Nat.zero_add] at hiff
  refine ⟨hiff, fun hreturned ↦ ?_⟩
  rcases hends with hbad | ⟨hleft, -⟩
  · exact absurd hreturned (Retried.not_returned hbad)
  · exact hleft

end Retry

def Settles {α : Type} (fits : ℕ → Option α → Prop) (query : Query α) (turn n : ℕ) : Prop :=
  (query turn).1 < 0 ∧ (query turn).1 ≠ -1 ∨ 0 ≤ (query turn).1 ∧ fits n (query turn).2

def TooSmall {α : Type} (exceeds : ℕ → Option α → Prop) (query : Query α) (turn n : ℕ) : Prop :=
  0 ≤ (query turn).1 ∧ exceeds n (query turn).2

theorem attempt_kind {α β : Type} {B : Buffers β} {I : β → Prop}
    {fits exceeds : ℕ → Option α → Prop} {native : ℤ → Option α → β → Option (β × ℤ)}
    {decode : β → β → Option (List String)}
    (hnegative : ∀ code found b, code < 0 → native code found b = some (b, code))
    (hfound : ∀ code found b, I b → 0 ≤ code →
      (fits (B.size b) found ∧ ∃ filled strings, native code found b = some (filled, code) ∧
        B.size filled = B.size b ∧ I filled ∧ decode b filled = some strings) ∨
      (¬ fits (B.size b) found ∧ exceeds (B.size b) found ∧
        ∃ filled, native code found b = some (filled, -1)) ∨
      (¬ fits (B.size b) found ∧ ¬ exceeds (B.size b) found ∧ native code found b = none))
    (query : Query α) (turn : ℕ) (b : β) (hb : I b) :
    TurnKind B I (Settles fits query) (TooSmall exceeds query) (fun turn ↦ (query turn).1)
      (metadataAttempt native decode query) turn b := by
  by_cases hneg : (query turn).1 < 0
  · have hnative := hnegative _ (query turn).2 b hneg
    by_cases hone : (query turn).1 = -1
    · have hagain := hnative.trans (congrArg (fun code ↦ some (b, code)) hone)
      refine .mistaken (attempt_again hagain) hneg ?_ fun hx ↦ not_lt.mpr hx.1 hneg
      rintro (hother | hpos)
      · exact hother.2 hone
      · exact not_lt.mpr hpos.1 hneg
    · exact .settled (attempt_failed hnative hneg hone) (Or.inl ⟨hneg, hone⟩) rfl hb
        (Or.inl ⟨hneg, rfl⟩)
  have hcode : 0 ≤ (query turn).1 := not_lt.mp hneg
  have hsettles : Settles fits query turn (B.size b) ↔ fits (B.size b) (query turn).2 := by
    rw [Settles, or_iff_right fun hx ↦ hneg hx.1, and_iff_right hcode]
  obtain ⟨hfits, filled, strings, hnative, hsize, hI, hdecode⟩ |
    ⟨hfits, hexceeds, filled, hnative⟩ | ⟨hfits, hexceeds, hnative⟩ :=
      hfound _ (query turn).2 b hb hcode
  · exact .settled (attempt_delivered hnative hcode hdecode) (hsettles.mpr hfits) hsize hI
      (Or.inr ⟨hcode, strings, rfl⟩)
  · exact .small (attempt_again hnative) ⟨hcode, hexceeds⟩ hcode (hsettles.not.mpr hfits)
  · exact .lost (attempt_overrun hnative) (hsettles.not.mpr hfits) (fun hx ↦ hexceeds hx.2)
      (Or.inr rfl)

end GdalWarp.Bindings
