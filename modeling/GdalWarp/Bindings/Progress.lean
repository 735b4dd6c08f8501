import GdalWarp.Foundation.ProgramLogic
import GdalWarp.Bindings.Service
import GdalWarp.Bindings.Copies

namespace GdalWarp.Bindings

open Foundation Foundation.Program FlatLruCache

@[simp] theorem tryLock_within {α : Type} {body : Task (Answer α)} {m : ℕ} :
    (tryLock body).Within (m + 1) ↔ body.Within m := by
  simp [tryLock]

theorem readBand_within (getter : BandGetter) (dataset bandNumber : ℤ) :
    (readBand getter dataset bandNumber).Within 12 := by
  simp [readBand]

theorem readMetadata_within (getter : MetadataGetter) (dataset bandNumber : ℤ) :
    (readMetadata getter dataset bandNumber).Within 12 := by
  simp [readMetadata]

theorem getOverviews_within (band : Option BandH) (i k : ℕ) :
    (getOverviews band i k).Within (6 * k) := by
  induction k generalizing i with
  | zero => trivial
  | succ k ih =>
    refine ⟨by omega, fun overview ↦ ⟨by omega, fun width ↦ ⟨by omega, fun height ↦ ?_⟩⟩⟩
    exact (ih (i + 1)).bind (k := 0) fun rest ↦ trivial

theorem getOverviewWidthsHeights_within (dataset bandNumber maxLength : ℤ) :
    (getOverviewWidthsHeights dataset bandNumber maxLength).Within (12 + 6 * maxLength.toNat) := by
  have hlock : 12 + 6 * maxLength.toNat = (11 + 6 * maxLength.toNat) + 1 := by omega
  rw [hlock, getOverviewWidthsHeights, tryLock_within]
  refine ⟨by omega, fun band ↦ ⟨by omega, fun count ↦ ?_⟩⟩
  refine Within.mono ((getOverviews_within band 0 _).bind (k := 1) fun sizes ↦ ?_) (by omega)
  exact ⟨le_rfl, trivial⟩

def Operation.stepLimit : Operation → ℕ
  | .getOverviewWidthsHeights _ _ maxLength => 12 + 6 * maxLength.toNat
  | _ => 12

theorem program_within (op : Operation) : op.program.Within op.stepLimit := by
  cases op with
  | getOverviewWidthsHeights d b k => exact getOverviewWidthsHeights_within d b k
  | getMetadataDomainList d b => exact readMetadata_within _ d b
  | getMetadata d b domain => exact readMetadata_within _ d b
  | getBlockSize d b | getOffset d b | getScale d b | getColorInterpretation d b
  | getBandNodata d b | getBandDataType d b => exact readBand_within _ d b
  | getBandMaxMin d b approx flag =>
    simp [Operation.program, getBandMaxMin, Operation.stepLimit]
  | getCrsProj4 d k => simp [Operation.program, getCrsProj4, Operation.stepLimit]
  | getHistogram => simp [Operation.program, getHistogram, Operation.stepLimit]
  | getMetadataItem => simp [Operation.program, getMetadataItem, Operation.stepLimit]
  | getPixels => simp [Operation.program, getPixels, Operation.stepLimit]
  | _ => simp [Operation.program, noop, getCrsWkt, getBandCount, getTransform, getWidthHeight,
      Operation.stepLimit]

theorem task_within (op : Operation) : op.task.Within op.stepLimit :=
  (program_within op).bind (k := 0) fun _ ↦ trivial

def Invocation.datasetLimit (c : Invocation) : ℕ := c.op.stepLimit + 3

/-- A round has at most the datasets that are there and those asked for. -/
def Invocation.roundLimit (c : Invocation) (n : ℕ) : ℕ :=
  (n + c.copies.natAbs) * c.datasetLimit + c.copies.natAbs + 4

def Invocation.stepLimit (c : Invocation) (n : ℕ) : ℕ :=
  c.attempts.toNat * c.roundLimit n + 1

-- `attempts` is an int
def Invocation.Limited (c : Invocation) : Prop := 0 < c.attempts ∧ c.attempts < 2 ^ 31

def Frame.later (f : Frame) (n : ℕ) : ℕ :=
  (f.call.attempts - f.locals.i - 1).toNat * f.call.roundLimit n

def Frame.Inside (f : Frame) : Prop :=
  f.call.Limited ∧ 0 ≤ f.locals.i ∧ f.locals.i < f.call.attempts

namespace Pc

variable {n : ℕ}

def inserts : Pc n → Bool
  | .inserting _ _ _ => true
  | _ => false

-- a thread in an operation always has a program to go on with
def alive : Pc n → Bool
  | .running _ _ _ .idle => false
  | _ => true

theorem loopHead_alive (f : Frame) (l : Option DatasetH) : (loopHead f l : Pc n).alive = true := by
  unfold loopHead
  split <;> rfl

theorem got_alive (f : Frame) (found : List (Fin n)) : (got f found).alive = true := by
  unfold got
  split <;> rfl

theorem scanned_alive (f : Frame) (found : List (Fin n)) : (scanned f found).alive = true := by
  unfold scanned
  split
  · exact got_alive f found
  · rfl

/-- A thread here takes at most so many steps until its call has returned. -/
def Left : Pc n → ℕ → Prop
  | .idle, _ => False
  | .called c, m => c.Limited ∧ c.stepLimit n ≤ m
  | .round f, m => f.Inside ∧ f.later n + f.call.roundLimit n ≤ m
  | .missing f found request, m => f.Inside ∧
    f.later n + (found.length + request.missing) * f.call.datasetLimit + request.missing + 3 ≤ m
  | .inserting f found left, m => f.Inside ∧
    f.later n + (found.length + left) * f.call.datasetLimit + left + 2 ≤ m
  | .trying f rest _, m => f.Inside ∧
    f.later n + rest.length * f.call.datasetLimit + 1 ≤ m
  | .running f _ rest w, m => f.Inside ∧
    ∃ k, f.later n + rest.length * f.call.datasetLimit + k + 3 ≤ m ∧
    match w with
    | .idle => False
    | .ready p => p.Within k
    | .inside c g => (Program.call c g).Within (k + 1)
  | .releasing f _ rest _, m => f.Inside ∧
    f.later n + rest.length * f.call.datasetLimit + 2 ≤ m
  | .returned _ _, _ => True

theorem left_loopHead {f : Frame} {m : ℕ} (hlimited : f.call.Limited) (hi : 0 ≤ f.locals.i)
    (hm : (f.call.attempts - f.locals.i).toNat * f.call.roundLimit n ≤ m)
    (l : Option DatasetH) : (loopHead f l : Pc n).Left m := by
  unfold loopHead
  split
  case isTrue hloops =>
    have hmore : f.locals.i < f.call.attempts := by
      simp only [Locals.loops, Bool.and_eq_true, Bool.or_eq_true, decide_eq_true_eq] at hloops
      have hpos := hlimited.1
      omega
    refine ⟨⟨hlimited, hi, hmore⟩, ?_⟩
    have hround : (f.call.attempts - f.locals.i).toNat =
        (f.call.attempts - f.locals.i - 1).toNat + 1 := by omega
    rw [hround, Nat.succ_mul] at hm
    exact hm
  case isFalse => trivial

theorem left_got {f : Frame} {found : List (Fin n)} {m : ℕ} (hf : f.Inside)
    (hm : f.later n + found.length * f.call.datasetLimit + 1 ≤ m) : (got f found).Left m := by
  unfold got
  split
  · trivial
  · exact ⟨hf, hm⟩

theorem left_scanned {f : Frame} {found : List (Fin n)} {m : ℕ} (hf : f.Inside)
    (hfound : found.length ≤ n) (hm : f.later n + f.call.roundLimit n ≤ m + 1) :
    (scanned f found).Left m := by
  rw [Invocation.roundLimit] at hm
  have hmissing := request_missing_le f.call.copies found.length
  unfold scanned
  cases hrequest : request f.call.copies found.length with
  | nothing =>
    have hdatasets : found.length * f.call.datasetLimit ≤
        (n + f.call.copies.natAbs) * f.call.datasetLimit := Nat.mul_le_mul_right _ (by omega)
    exact left_got hf (by omega)
  | hard k | soft k =>
    rw [hrequest, Request.missing] at hmissing
    have hdatasets : (found.length + k) * f.call.datasetLimit ≤
        (n + f.call.copies.natAbs) * f.call.datasetLimit := Nat.mul_le_mul_right _ (by omega)
    refine ⟨hf, ?_⟩
    dsimp only [Request.missing]
    omega

end Pc

namespace ServiceEvent

variable {τ : Type}

def thread : ServiceEvent τ → Option τ
  | .getToken _ _ => none
  | .call t _ | .query t _ | .round t _ | .lockCache t | .giveUp t | .insert t _ | .unlockCache t
  | .attempt t | .advance t | .answer t _ | .dec t | .next t | .finish t => some t

end ServiceEvent

namespace Service

variable {τ : Type} [DecidableEq τ] {L : LruCache} {n : ℕ}

theorem step_other {h : StringHash} {s s' : Service τ L n} {e : ServiceEvent τ} {t : τ}
    (hs : s.step h e = some s') (ht : e.thread ≠ some t) : s'.threads t = s.threads t := by
  have hother {u : τ} (hu : some u ≠ some t) {r : Service τ L n} {th : Thread n} :
      (r.put u th).threads t = r.threads t := put_of_ne r th fun hx ↦ hu (congrArg some hx.symm)
  cases step_moves hs with
  | getToken => rfl
  | advance u f i rest p hpc =>
    cases p with
    | tryLock k =>
      by_cases hfree : (s.cache.values i).datasetLock = none
      · rw [work, if_pos hfree]
        exact hother ht
      · rw [work, if_neg hfree]
        exact hother ht
    | _ => exact hother ht
  | _ => exact hother ht

@[simp] theorem move_pc (s : Service τ L n) (t : τ) (pc : Pc n) :
    ((s.move t pc).threads t).pc = pc := congrArg Thread.pc (put_self ..)

theorem left_work {s : Service τ L n} {t : τ} {f : Frame} {i : Fin n} {rest : List (Fin n)}
    {p : Task (ℤ × Option ℤ)} {m : ℕ}
    (hm : (Pc.running f i rest (.ready p)).Left m) :
    ∃ k < m, ((s.work t f i rest p).threads t).pc.Left k := by
  obtain ⟨hf, k, hk, hp⟩ := hm
  cases p with
  | ret r =>
    have hi : (f.locals.touch r.1).i = f.locals.i := by
      unfold Locals.touch
      split <;> rfl
    have hlater : Frame.later { f with locals := f.locals.touch r.1 } n = f.later n := by
      rw [Frame.later, Frame.later, hi]
    refine ⟨m - 1, by omega, ?_⟩
    rw [work, move_pc]
    refine ⟨⟨hf.1, by rw [hi]; exact hf.2.1, by rw [hi]; exact hf.2.2⟩, ?_⟩
    rw [hlater]
    dsimp only
    omega
  | tryLock g =>
    obtain ⟨hpos, hg⟩ := hp
    refine ⟨m - 1, by omega, ?_⟩
    by_cases hfree : (s.cache.values i).datasetLock = none
    · rw [work, if_pos hfree, move_pc]
      exact ⟨hf, k - 1, by omega, hg true⟩
    · rw [work, if_neg hfree, move_pc]
      exact ⟨hf, k - 1, by omega, hg false⟩
  | unlock g =>
    obtain ⟨hpos, hg⟩ := hp
    refine ⟨m - 1, by omega, ?_⟩
    rw [work, move_pc]
    exact ⟨hf, k - 1, by omega, hg⟩
  | call c g =>
    have hpos : 2 ≤ k := hp.1
    refine ⟨m - 1, by omega, ?_⟩
    rw [work, move_pc]
    exact ⟨hf, k - 1, by omega, hp.mono (by omega)⟩

/-- Each step a thread takes in a call brings the end of the call nearer. -/
theorem left_step {h : StringHash} {s s' : Service τ L n} {e : ServiceEvent τ} {t : τ} {m : ℕ}
    (hs : s.step h e = some s') (ht : e.thread = some t) (hfinish : e ≠ .finish t)
    (hm : (s.threads t).pc.Left m) : ∃ k < m, (s'.threads t).pc.Left k := by
  cases step_moves hs with
  | getToken => cases ht
  | call u c hpc =>
    obtain rfl := Option.some.inj ht
    rw [hpc] at hm
    exact hm.elim
  | query u now c pair hpc hpair =>
    obtain rfl := Option.some.inj ht
    rw [hpc] at hm
    obtain ⟨hlimited, hle⟩ := hm
    rw [Invocation.stepLimit] at hle
    refine ⟨m - 1, by omega, ?_⟩
    rw [move_pc]
    refine Pc.left_loopHead hlimited le_rfl ?_ none
    dsimp only [Locals.start]
    rw [sub_zero]
    omega
  | unknown u now c hpc =>
    obtain rfl := Option.some.inj ht
    rw [hpc] at hm
    obtain ⟨-, hle⟩ := hm
    rw [Invocation.stepLimit] at hle
    exact ⟨m - 1, by omega, by rw [move_pc]; trivial⟩
  | timeOut u now f hpc =>
    obtain rfl := Option.some.inj ht
    rw [hpc] at hm
    obtain ⟨-, hle⟩ := hm
    rw [Invocation.roundLimit] at hle
    exact ⟨m - 1, by omega, by rw [move_pc]; trivial⟩
  | scan u now f hpc =>
    obtain rfl := Option.some.inj ht
    rw [hpc] at hm
    obtain ⟨hf, hle⟩ := hm
    refine ⟨m - 1, by rw [Invocation.roundLimit] at hle; omega, ?_⟩
    rw [put_self]
    refine Pc.left_scanned hf ?_ (by omega)
    rw [find_eq]
    exact (List.length_filter_le ..).trans_eq (List.length_finRange ..)
  | lockCache u f found request hpc =>
    obtain rfl := Option.some.inj ht
    rw [hpc] at hm
    obtain ⟨hf, hle⟩ := hm
    exact ⟨m - 1, by omega, by rw [move_pc]; exact ⟨hf, by omega⟩⟩
  | giveUp u f found k hpc =>
    obtain rfl := Option.some.inj ht
    rw [hpc] at hm
    obtain ⟨hf, hle⟩ := hm
    rw [Nat.add_mul] at hle
    exact ⟨m - 1, by omega, by rw [move_pc]; exact Pc.left_got hf (by omega)⟩
  | insert u o f found left r hpc hr =>
    obtain rfl := Option.some.inj ht
    rw [hpc] at hm
    obtain ⟨hf, hle⟩ := hm
    have hlength : r.list.length ≤ found.length + 1 :=
      insertLoop_length_le (j := 1) (o := fun _ ↦ o) hr
    have hdatasets : (r.list.length + left) * f.call.datasetLimit ≤
        (found.length + (left + 1)) * f.call.datasetLimit := Nat.mul_le_mul_right _ (by omega)
    exact ⟨m - 1, by omega, by rw [put_self]; exact ⟨hf, by omega⟩⟩
  | unlockCache u f found hpc =>
    obtain rfl := Option.some.inj ht
    rw [hpc] at hm
    obtain ⟨hf, hle⟩ := hm
    simp only [Nat.add_zero] at hle
    exact ⟨m - 1, by omega, by rw [move_pc]; exact Pc.left_got hf (by omega)⟩
  | attempt u f i rest l hpc =>
    obtain rfl := Option.some.inj ht
    rw [hpc] at hm
    obtain ⟨hf, hle⟩ := hm
    rw [List.length_cons, Nat.succ_mul] at hle
    have hlimit : f.call.datasetLimit = f.call.op.stepLimit + 3 := rfl
    refine ⟨m - 1, by omega, ?_⟩
    rw [move_pc]
    exact ⟨hf, f.call.op.stepLimit, by omega, task_within f.call.op⟩
  | skip u f i rest l hpc =>
    obtain rfl := Option.some.inj ht
    rw [hpc] at hm
    obtain ⟨hf, hle⟩ := hm
    rw [List.length_cons, Nat.succ_mul] at hle
    have hlimit : f.call.datasetLimit = f.call.op.stepLimit + 3 := rfl
    exact ⟨m - 1, by omega, by rw [move_pc]; exact ⟨hf, by omega⟩⟩
  | advance u f i rest p hpc =>
    obtain rfl := Option.some.inj ht
    rw [hpc] at hm
    exact left_work hm
  | answer u reply f i rest c g hpc =>
    obtain rfl := Option.some.inj ht
    rw [hpc] at hm
    obtain ⟨hf, k, hk, hpos, hg⟩ := hm
    refine ⟨m - 1, by omega, ?_⟩
    rw [move_pc]
    exact ⟨hf, k - 1, by omega, hg (reply c)⟩
  | dec u f i rest l hpc =>
    obtain rfl := Option.some.inj ht
    rw [hpc] at hm
    obtain ⟨hf, hle⟩ := hm
    exact ⟨m - 1, by omega, by rw [put_self]; exact ⟨hf, by omega⟩⟩
  | next u f l hpc =>
    obtain rfl := Option.some.inj ht
    rw [hpc] at hm
    obtain ⟨hf, hle⟩ := hm
    have hnext : int32 (f.locals.i + 1) = f.locals.i + 1 := by
      have hbelow := hf.1.2
      have hpast := hf.2
      exact Int.bmod_eq_of_le (by omega) (by omega)
    refine ⟨m - 1, by omega, ?_⟩
    rw [move_pc]
    refine Pc.left_loopHead
      (f := { f with locals := { f.locals with i := int32 (f.locals.i + 1) } }) hf.1 ?_ ?_ l
    · dsimp only
      rw [hnext]
      have hpast := hf.2
      omega
    · dsimp only
      rw [hnext, ← Int.sub_sub]
      rw [Frame.later] at hle
      omega
  | finish u value l hpc =>
    obtain rfl := Option.some.inj ht
    exact absurd rfl hfinish

/-- With a positive number of attempts a call takes no more steps of its thread than
its arguments allow, whatever the other threads, the clock and GDAL do meanwhile. -/
theorem call_steps_bounded {h : StringHash} {size : ℕ} {s s' : Service τ L n} {t : τ}
    {c : Invocation} (hpc : (s.threads t).pc = .called c) (hpos : 0 < c.attempts)
    (hint : c.attempts < 2 ^ 31) {es : List (ServiceEvent τ)}
    (hrun : (machine h τ L size n).run s es = some s') (hcall : .finish t ∉ es) :
    es.countP (fun e ↦ e.thread = some t) ≤ c.stepLimit n := by
  refine Machine.countP_le (I := fun s m ↦ (s.threads t).pc.Left m) (C := fun e ↦ e ≠ .finish t)
    ?_ ?_ ?_ (fun e he hx ↦ hcall (hx ▸ he)) hrun
  · exact fun s e s' m hm hfinish ht hs ↦ left_step hs (of_decide_eq_true ht) hfinish hm
  · intro s e s' m hm _ ht hs
    rw [step_other hs (of_decide_eq_false ht)]
    exact hm
  · rw [hpc]
    exact ⟨⟨hpos, hint⟩, le_rfl⟩

theorem call_steps_bounded_noop : ∃ s',
    (machine lengthHash Bool (.ofList Token UriOptions) 4 2).run
      ((machine lengthHash Bool (.ofList Token UriOptions) 4 2).init.put false
        ⟨.called ⟨33, .noop, 1, 1, 0⟩, []⟩)
      [.getToken ("a.tif", []) [], .query false 0, .call true ⟨33, .noop, 0, 1, 0⟩,
        .round false 0, .lockCache false] = some s' ∧
    3 ≤ (⟨33, .noop, 1, 1, 0⟩ : Invocation).stepLimit 2 := by
  have hrun : (machine lengthHash Bool (.ofList Token UriOptions) 4 2).run
      ((machine lengthHash Bool (.ofList Token UriOptions) 4 2).init.put false
        ⟨.called ⟨33, .noop, 1, 1, 0⟩, []⟩)
      [.getToken ("a.tif", []) [], .query false 0, .call true ⟨33, .noop, 0, 1, 0⟩,
        .round false 0, .lockCache false] = some _ := rfl
  exact ⟨_, hrun, call_steps_bounded (t := false) rfl (by decide) (by decide) hrun (by simp)⟩

/-- What a thread meets outside the library: the clock, how its next open goes, what
GDAL answers. -/
structure Outside where
  now : UInt64
  opener : Opener
  reply : ∀ c, Reply c

def moves (t : τ) (x : Outside) : List (ServiceEvent τ) :=
  [.query t x.now, .round t x.now, .lockCache t, .insert t x.opener, .unlockCache t, .attempt t,
    .advance t, .answer t x.reply, .dec t, .next t]

def CanMove (h : StringHash) (s : Service τ L n) (t : τ) : Prop :=
  ∀ x, ∃ e ∈ moves t x, (s.step h e).isSome = true

def Writing (s : Service τ L n) : Prop :=
  ∀ u, s.writer = some u → (s.threads u).pc.inserts = true

theorem Writing.put {s : Service τ L n} (hw : s.Writing) {t : τ} {tok : L.State}
    {c : FlatLruCache τ n} {g : Gdal} {wr : Option τ} {b : Bool} {th : Thread n}
    (hother : ∀ u, u ≠ t → wr = some u → s.writer = some u)
    (hth : wr = some t → th.pc.inserts = true) :
    ((⟨tok, c, g, wr, s.threads, b⟩ : Service τ L n).put t th).Writing := by
  intro u hu
  by_cases hut : u = t
  · subst hut
    rw [put_self]
    exact hth hu
  · rw [put_of_ne _ _ hut]
    exact hw u (hother u hut hu)

theorem Writing.keep {s : Service τ L n} (hw : s.Writing) {t : τ} {pc : Pc n} {tok : L.State}
    {c : FlatLruCache τ n} {g : Gdal} {b : Bool} {th : Thread n} (hpc : (s.threads t).pc = pc)
    (hinserts : pc.inserts = false) :
    ((⟨tok, c, g, s.writer, s.threads, b⟩ : Service τ L n).put t th).Writing := by
  refine hw.put (fun _ _ hu ↦ hu) fun ht ↦ ?_
  have hx := hw t ht
  rw [hpc, hinserts] at hx
  cases hx

theorem writing_work {s : Service τ L n} (hw : s.Writing) {t : τ} {f : Frame} {i : Fin n}
    {rest : List (Fin n)} {p : Task (ℤ × Option ℤ)}
    (hpc : (s.threads t).pc = .running f i rest (.ready p)) :
    (s.work t f i rest p).Writing := by
  cases p with
  | tryLock k =>
    by_cases hfree : (s.cache.values i).datasetLock = none
    · rw [work, if_pos hfree]
      exact hw.keep hpc rfl
    · rw [work, if_neg hfree]
      exact hw.keep hpc rfl
  | _ => exact hw.keep hpc rfl

theorem writing_step {h : StringHash} {s s' : Service τ L n} {e : ServiceEvent τ}
    (hw : s.Writing) (hs : s.step h e = some s') : s'.Writing := by
  cases step_moves hs with
  | getToken => exact hw
  | lockCache t f found request hpc hfree =>
    exact hw.put (fun u hu hx ↦ absurd (Option.some.inj hx).symm hu) fun _ ↦ rfl
  | insert t o f found left r hpc hr => exact hw.put (fun _ _ hu ↦ hu) fun _ ↦ rfl
  | unlockCache t f found hpc =>
    refine hw.put (fun u _ hu ↦ ?_) fun hu ↦ ?_ <;> cases hu
  | advance t f i rest p hpc => exact writing_work hw hpc
  | call t c hpc | query t now c pair hpc | unknown t now c hpc | timeOut t now f hpc
  | scan t now f hpc | giveUp t f found k hpc | attempt t f i rest l hpc | skip t f i rest l hpc
  | answer t reply f i rest c k hpc | dec t f i rest l hpc | next t f l hpc
  | finish t value l hpc => exact hw.keep hpc rfl

theorem canMove_of_writing {h : StringHash} {s : Service τ L n} {u : τ}
    (hu : (s.threads u).pc.inserts = true) : s.CanMove h u := by
  intro x
  cases hpc : (s.threads u).pc with
  | inserting f found left =>
    cases left with
    | zero => exact ⟨.unlockCache u, by simp [moves], by simp [step, hpc]⟩
    | succ left =>
      obtain ⟨r, hr⟩ := insertOne_isSome u (hashUriOptions h f.pair) f.pair x.opener
        ⟨found, s.cache, s.gdal⟩
      exact ⟨.insert u x.opener, by simp [moves], by simp [step, hpc, hr]⟩
  | _ =>
    rw [hpc] at hu
    cases hu

def Alive (s : Service τ L n) : Prop := ∀ u, (s.threads u).pc.alive = true

theorem alive_step {h : StringHash} {s s' : Service τ L n} {e : ServiceEvent τ}
    (ha : s.Alive) (hs : s.step h e = some s') : s'.Alive := by
  have hput {r : Service τ L n} {t : τ} {th : Thread n} (hr : r.threads = s.threads)
      (hth : th.pc.alive = true) : (r.put t th).Alive :=
    forall_put (P := fun _ th ↦ th.pc.alive = true) hth fun u _ ↦ hr ▸ ha u
  cases step_moves hs with
  | getToken => exact ha
  | query t now c pair hpc hpair => exact hput rfl (Pc.loopHead_alive ..)
  | next t f l hpc => exact hput rfl (Pc.loopHead_alive ..)
  | scan t now f hpc hfree => exact hput rfl (Pc.scanned_alive ..)
  | giveUp t f found k hpc => exact hput rfl (Pc.got_alive ..)
  | unlockCache t f found hpc => exact hput rfl (Pc.got_alive ..)
  | advance t f i rest p hpc =>
    cases p with
    | tryLock k =>
      by_cases hfree : (s.cache.values i).datasetLock = none
      · rw [work, if_pos hfree]
        exact hput rfl rfl
      · rw [work, if_neg hfree]
        exact hput rfl rfl
    | _ => exact hput rfl rfl
  | _ => exact hput rfl rfl

/-- No thread is stuck in a call: it can go on, or it waits for the cache while the
thread that has locked it can. -/
theorem no_deadlock {h : StringHash} {size : ℕ} {s : Service τ L n}
    (hs : (machine h τ L size n).Reachable s) {t : τ} (ht : (s.threads t).pc.settled = false) :
    s.CanMove h t ∨ ∃ u, u ≠ t ∧ s.writer = some u ∧ s.CanMove h u := by
  obtain ⟨hw, ha⟩ : s.Writing ∧ s.Alive := by
    refine hs.invariant (I := fun s ↦ s.Writing ∧ s.Alive) ⟨fun u hu ↦ ?_, fun _ ↦ rfl⟩ ?_
    · cases hu
    · exact fun _ _ _ hI hstep ↦ ⟨writing_step hI.1 hstep, alive_step hI.2 hstep⟩
  cases hwriter : s.writer with
  | some u =>
    have hu := canMove_of_writing (h := h) (hw u hwriter)
    by_cases hut : u = t
    · exact Or.inl (hut ▸ hu)
    · exact Or.inr ⟨u, hut, rfl, hu⟩
  | none =>
    refine Or.inl fun x ↦ ?_
    cases hpc : (s.threads t).pc with
    | idle | returned value l =>
      rw [hpc] at ht
      cases ht
    | called c =>
      refine ⟨.query t x.now, by simp [moves], ?_⟩
      simp only [step, hpc]
      split <;> rfl
    | round f =>
      refine ⟨.round t x.now, by simp [moves], ?_⟩
      simp only [step, hpc, hwriter, if_true]
      split <;> rfl
    | missing f found request => exact ⟨.lockCache t, by simp [moves], by simp [step, hpc, hwriter]⟩
    | inserting f found left => exact canMove_of_writing (by rw [hpc]; rfl) x
    | trying f rest l =>
      cases rest with
      | nil => exact ⟨.next t, by simp [moves], by simp [step, hpc]⟩
      | cons i rest =>
        refine ⟨.attempt t, by simp [moves], ?_⟩
        simp only [step, hpc]
        split <;> rfl
    | running f i rest w =>
      cases w with
      | idle =>
        have halive := ha t
        rw [hpc] at halive
        cases halive
      | ready p => exact ⟨.advance t, by simp [moves], by simp [step, hpc]⟩
      | inside c k => exact ⟨.answer t x.reply, by simp [moves], by simp [step, hpc]⟩
    | releasing f i rest l => exact ⟨.dec t, by simp [moves], by simp [step, hpc]⟩

theorem no_deadlock_waiting : ∃ s,
    (machine lengthHash Bool (.ofList Token UriOptions) 4 2).Reachable s ∧ s.writer = some false ∧
    (s.CanMove lengthHash true ∨
      ∃ u, u ≠ true ∧ s.writer = some u ∧ s.CanMove lengthHash u) := by
  have hs : (machine lengthHash Bool (.ofList Token UriOptions) 4 2).Reachable _ :=
    ⟨[.getToken ("a.tif", []) [], .call false ⟨33, .noop, 1, 1, 0⟩, .query false 0,
      .call true ⟨33, .noop, 1, 1, 0⟩, .query true 0, .round false 0, .lockCache false], rfl⟩
  exact ⟨_, hs, rfl, no_deadlock hs rfl⟩

end Service

end GdalWarp.Bindings
