import GdalWarp.Bindings.ByteOrder
import GdalWarp.Bindings.Doit

namespace GdalWarp.Bindings

open Foundation.Blocks Locals

/-- What `get_pixels` comes to on a dataset: another thread has its lock, or GDAL
has read, with what it returned and what the buffer then holds. -/
inductive Pixels where
  | locked
  | read (retval : ℤ) (buffer : List UInt8)

namespace Pixels

def outcome : Pixels → ℤ
  | locked => datasetLocked
  | read retval _ => retval

def leave (data : List UInt8) : Pixels → List UInt8
  | locked => data
  | read _ buffer => buffer

end Pixels

structure PixelRound where
  now : UInt64
  pixels : List Pixels

def PixelRound.round (r : PixelRound) : Round := ⟨r.now, r.pixels.map Pixels.outcome⟩

/-- The native `get_data`: what it returns and what the buffer then holds.
`get_pixels` has been invoked on the first datasets of the rounds. -/
def nativeGetData (attempts : ℤ) (nanos start : UInt64) (queryResult : Option UriOptions)
    (rounds : List PixelRound) (data : List UInt8) : Option (ℤ × List UInt8) :=
  (doit attempts nanos start queryResult (rounds.map PixelRound.round)).map fun r ↦
    (r.value, ((rounds.flatMap PixelRound.pixels).take r.invoked.length).foldl Pixels.leave data)

/-- The JNI `get_data`, with no time budget: the array afterwards, `none` where
the loop over it left it, and the result. -/
def jniGetData (type attempts : ℤ) (start : UInt64) (queryResult : Option UriOptions)
    (rounds : List PixelRound) (data : List UInt8) : Option (Option (List UInt8) × ℤ) :=
  (nativeGetData attempts 0 start queryResult rounds data).map fun native ↦
    (swapBytes type native.2, native.1)

theorem invocations_prefix_self (os : List ℤ) : invocations os <+: os := by
  induction os with
  | nil => exact List.prefix_rfl
  | cons o os ih =>
    rw [invocations]
    split
    · exact List.prefix_append [o] os
    · exact List.prefix_cons_inj o |>.mpr ih

theorem foldl_touch_invoked {l : Locals} (hdone : l.done = false) (os : List ℤ) :
    (os.foldl touch l).invoked = l.invoked ++ invocations os ∧
      ((os.foldl touch l).done = false → attemptSuccessful ∉ os) := by
  induction os generalizing l with
  | nil => exact ⟨(List.append_nil _).symm, fun _ ↦ List.not_mem_nil⟩
  | cons o os ih =>
    have hstep : l.touch o = ⟨o == attemptSuccessful && o != datasetLocked, o,
        int32 (l.touched + 1), l.i, l.invoked ++ [o]⟩ := by simp [touch, hdone]
    rw [List.foldl_cons, invocations]
    by_cases ho : o = attemptSuccessful
    · have hset : (l.touch o).done = true := by
        rw [hstep, ho]
        rfl
      rw [foldl_touch_done hset, if_pos ho, hset, hstep]
      exact ⟨rfl, fun hx ↦ absurd hx (by decide)⟩
    · have hunset : (l.touch o).done = false := by simp [hstep, ho]
      obtain ⟨hinvoked, hnone⟩ := ih hunset
      rw [hinvoked, if_neg ho, hstep, List.append_assoc, List.singleton_append]
      rw [hstep] at hnone
      exact ⟨rfl, fun hx ↦ List.not_mem_cons_of_ne_of_not_mem (Ne.symm ho) (hnone hx)⟩

theorem doitLoop_done {attempts : ℤ} {nanos start : UInt64} {l : Locals} (hdone : l.done = true)
    (rounds : List Round) :
    doitLoop attempts nanos start l rounds = some ⟨l.result attempts, l.invoked⟩ := by
  have hstop : l.loops attempts = false := by rw [loops, hdone, Bool.not_true, Bool.and_false]
  cases rounds with
  | nil => rw [doitLoop, hstop, if_neg Bool.false_ne_true]
  | cons a rounds => rw [doitLoop, hstop, if_neg Bool.false_ne_true]

theorem doitLoop_invoked {attempts : ℤ} {nanos start : UInt64} {l : Locals} {rounds : List Round}
    {r : Returned} (hr : doitLoop attempts nanos start l rounds = some r) :
    ∃ past, r.invoked = l.invoked ++ past ∧ past <+: outcomes rounds := by
  have hnow : ∃ past, l.invoked = l.invoked ++ past ∧ past <+: outcomes rounds :=
    ⟨[], (List.append_nil _).symm, List.nil_prefix⟩
  induction rounds generalizing l with
  | nil =>
    rw [doitLoop] at hr
    split at hr
    · cases hr
    · cases hr
      exact hnow
  | cons a rounds ih =>
    rw [doitLoop] at hr
    split at hr
    case isFalse =>
      cases hr
      exact hnow
    case isTrue hloops =>
      have hdone : l.done = false := by
        rw [loops, Bool.and_eq_true, Bool.not_eq_true'] at hloops
        exact hloops.2
      split at hr
      · cases hr
        exact hnow
      · split at hr
        · cases hr
          exact hnow
        · obtain ⟨hinvoked, hnone⟩ := foldl_touch_invoked hdone a.outcomes
          have htry : (l.tryAll a.outcomes).invoked = l.invoked ++ invocations a.outcomes := hinvoked
          cases hend : (l.tryAll a.outcomes).done with
          | true =>
            rw [doitLoop_done hend] at hr
            cases hr
            exact ⟨_, htry, (invocations_prefix_self _).trans (List.prefix_append _ _)⟩
          | false =>
            rw [invocations_eq_self (hnone hend)] at htry
            obtain ⟨past, hpast, hprefix⟩ :=
              ih hr ⟨[], (List.append_nil _).symm, List.nil_prefix⟩
            refine ⟨a.outcomes ++ past, ?_, (List.prefix_append_right_inj _).mpr hprefix⟩
            rw [hpast, htry, List.append_assoc]

theorem outcomes_round (rounds : List PixelRound) :
    outcomes (rounds.map PixelRound.round) =
      (rounds.flatMap PixelRound.pixels).map Pixels.outcome := by
  rw [outcomes, List.flatMap_map, List.map_flatMap]
  rfl

theorem doit_invoked_pixels {attempts : ℤ} {nanos start : UInt64}
    {queryResult : Option UriOptions} {rounds : List PixelRound} {r : Returned}
    (hr : doit attempts nanos start queryResult (rounds.map PixelRound.round) = some r) :
    r.invoked =
      ((rounds.flatMap PixelRound.pixels).take r.invoked.length).map Pixels.outcome := by
  rw [List.map_take, ← outcomes_round]
  cases queryResult with
  | none =>
    cases hr
    rfl
  | some pair =>
    obtain ⟨past, hpast, hprefix⟩ := doitLoop_invoked hr
    have hinvoked : r.invoked = past := hpast
    rw [hinvoked]
    exact List.prefix_iff_eq_take.mp hprefix

theorem foldl_leave_locked {pixels : List Pixels} (h : ∀ p ∈ pixels, p = .locked)
    (data : List UInt8) : pixels.foldl Pixels.leave data = data := by
  induction pixels with
  | nil => rfl
  | cons p pixels ih =>
    rw [List.foldl_cons, h p List.mem_cons_self]
    exact ih fun q hq ↦ h q (List.mem_cons_of_mem p hq)

theorem nativeGetData_unread {attempts : ℤ} {nanos start : UInt64}
    {queryResult : Option UriOptions} {rounds : List PixelRound} {data buffer : List UInt8}
    {retval : ℤ} (h : queryResult = none ∨ ∀ p ∈ rounds.flatMap PixelRound.pixels, p = .locked)
    (hr : nativeGetData attempts nanos start queryResult rounds data = some (retval, buffer)) :
    retval < 0 ∧ buffer = data := by
  obtain ⟨r, hdoit, heq⟩ := Option.map_eq_some_iff.mp hr
  obtain ⟨rfl, rfl⟩ := Prod.mk.inj heq
  rcases h with rfl | hlocked
  · cases hdoit
    exact ⟨by decide, rfl⟩
  · refine ⟨?_, foldl_leave_locked (fun p hp ↦ hlocked p (List.mem_of_mem_take hp)) data⟩
    cases queryResult with
    | none =>
      cases hdoit
      decide
    | some pair =>
      refine doitLoop_neg rfl (Or.inr (start_loops attempts)) (fun o ho ↦ ?_) hdoit
      rw [outcomes_round] at ho
      obtain ⟨p, hp, rfl⟩ := List.mem_map.mp ho
      rw [hlocked p hp]
      decide

theorem swapBytes_eq_self_iff {type : ℤ} {data : List UInt8} (hlength : data.length < 2 ^ 31) :
    swapBytes type data = some data ↔
      ∀ w, swapWidth type = some w → w ≤ data.length ∧ Reversed w data data := by
  rw [swapBytes_eq hlength]
  cases hw : swapWidth type with
  | none => exact iff_of_true rfl fun w h ↦ nomatch h
  | some w =>
    simp only [Option.some.injEq, forall_eq']
    have hpos := (swapWidth_cases hw).1
    have hreversed := reversed_reverseBlocks hpos data
    by_cases hle : w ≤ data.length
    · rw [if_pos hle, Option.some_inj, and_iff_right hle]
      constructor
      · intro heq
        rwa [heq] at hreversed
      · exact hreversed.unique hpos
    · rw [if_neg hle]
      exact iff_of_false (fun h ↦ nomatch h) fun h ↦ hle h.1

theorem jniGetData_eq {type attempts : ℤ} {start : UInt64} {queryResult : Option UriOptions}
    {rounds : List PixelRound} {data buffer : List UInt8} {retval : ℤ}
    (hnative : nativeGetData attempts 0 start queryResult rounds data = some (retval, buffer)) :
    jniGetData type attempts start queryResult rounds data =
      some (swapBytes type buffer, retval) := by
  rw [jniGetData, hnative, Option.map_some]

/-- Where the native layer has written nothing, the array is as before exactly
when its type has no components to turn round, or there is one and all read the
same either way. -/
theorem data_kept_iff {type attempts : ℤ} {start : UInt64} {queryResult : Option UriOptions}
    {rounds : List PixelRound} {data : List UInt8} {retval : ℤ} (hlength : data.length < 2 ^ 31)
    (hnative : nativeGetData attempts 0 start queryResult rounds data = some (retval, data)) :
    jniGetData type attempts start queryResult rounds data = some (some data, retval) ↔
      ∀ w, swapWidth type = some w → w ≤ data.length ∧ Reversed w data data := by
  rw [jniGetData_eq hnative, Option.some_inj, Prod.mk_inj, and_iff_left rfl]
  exact swapBytes_eq_self_iff hlength

theorem data_kept_iff_all_locked :
    jniGetData DataType.int16.code 2 0 (some ("a.tif", [])) [⟨0, [.locked]⟩, ⟨0, [.locked]⟩]
      [7, 7, 1] = some (some [7, 7, 1], -attemptsExceeded) := by
  refine (data_kept_iff (by decide) (by decide)).mpr fun w hw ↦ ?_
  obtain rfl : 2 = w := Option.some.inj hw
  refine ⟨by decide, rfl, fun k j hk hj ↦ ?_, fun i _ ↦ rfl⟩
  have hk' : (k + 1) * 2 ≤ 3 := hk
  obtain rfl : k = 0 := by omega
  have hj' : j = 0 ∨ j = 1 := by omega
  rcases hj' with rfl | rfl <;> rfl

theorem unread_pixels_swapped :
    nativeGetData 1 0 0 none [] [1, 2] = some (-cpleOpenFailed, [1, 2]) ∧
    jniGetData DataType.int16.code 1 0 none [] [1, 2] ≠ some (some [1, 2], -cpleOpenFailed) := by
  have hnative : nativeGetData 1 0 0 none [] [1, 2] = some (-cpleOpenFailed, [1, 2]) := rfl
  refine ⟨hnative, fun h ↦ ?_⟩
  rw [jniGetData_eq hnative, Option.some_inj, Prod.mk_inj, swapBytes_eq_self_iff (by decide)] at h
  have hreversed := (h.1 2 rfl).2
  exact absurd (hreversed.block 0 0 (by decide) (by decide)) (by decide)

end GdalWarp.Bindings
