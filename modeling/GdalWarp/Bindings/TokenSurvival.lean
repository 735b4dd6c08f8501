import GdalWarp.Foundation.Machine
import GdalWarp.Foundation.Recency
import GdalWarp.Bindings.Tokens

namespace GdalWarp.Bindings

open Foundation Recency

structure TokenCall where
  uri : Uri
  options : List (Option String)

/-- What the call asks for: the options end at the first null pointer. -/
def TokenCall.pair (call : TokenCall) : UriOptions :=
  (call.uri, (call.options.takeWhile Option.isSome).reduceOption)

inductive TokenEvent where
  | get (call : TokenCall) (draws : List Token)
  | query (token : Token)

/-- The token cache of a process, the tokens in the order they were issued or
successfully queried, and the calls they were issued for. The latest come first. -/
structure TokenHistory (L : LruCache) where
  cache : L.State
  touched : List Token
  issued : List (Token × TokenCall)

namespace TokenHistory

variable {L : LruCache}

def step (s : TokenHistory L) : TokenEvent → Option (TokenHistory L)
  | .get call draws => (getTokenArray L s.cache call.uri call.options draws).map fun r ↦
    ⟨r.2, r.1 :: s.touched, (r.1, call) :: s.issued⟩
  | .query token =>
    let answer := queryToken L s.cache token
    some { s with
      cache := answer.2
      touched := if answer.1.isSome then token :: s.touched else s.touched }

def machine (L : LruCache) (size : ℕ) : Machine (TokenHistory L) TokenEvent where
  init := ⟨tokenInit L size, [], []⟩
  step := step

theorem step_get {s s' : TokenHistory L} {call : TokenCall} {draws : List Token}
    (h : s.step (.get call draws) = some s') :
    ∃ token, getToken L s.cache call.pair draws = some (token, s'.cache) ∧
      s'.touched = token :: s.touched ∧ s'.issued = (token, call) :: s.issued := by
  obtain ⟨⟨token, c⟩, hcall, heq⟩ := Option.map_eq_some_iff.mp h
  obtain ⟨options, hoptions, htoken⟩ := Option.bind_eq_some_iff.mp hcall
  cases heq
  rw [TokenCall.pair, readOptions_some hoptions]
  exact ⟨token, htoken, rfl, rfl⟩

/-- The cache holds the last calls of the `size` tokens touched latest. -/
structure Recalls (size : ℕ) (s : TokenHistory L) : Prop where
  capacity : L.capacity s.cache = size
  keys : (L.entries s.cache).map Prod.fst = (recent s.touched).take size
  pairs : ∀ e ∈ L.entries s.cache, (s.issued.lookup e.1).map TokenCall.pair = some e.2
  issued : ∀ token, token ∈ s.touched ↔ (s.issued.lookup token).isSome
  good : badToken ∉ s.touched

theorem Recalls.get {size : ℕ} {s s' : TokenHistory L} {call : TokenCall} {draws : List Token}
    (h : s.Recalls size) (hsize : 0 < size) (hs : s.step (.get call draws) = some s') :
    s'.Recalls size := by
  obtain ⟨token, htoken, htouched, hissued⟩ := step_get hs
  obtain ⟨hfree, hgood, hc, -⟩ := getToken_some htoken
  have hentries := L.entries_insert s.cache token call.pair hfree
  rw [← hc, h.capacity] at hentries
  have habsent : token ∉ (recent s.touched).take size := by
    rw [← h.keys, ← L.isSome_lookup_iff, LruMap.lookup, ← L.contains_eq, hfree]
    exact Bool.false_ne_true
  obtain ⟨n, rfl⟩ := Nat.exists_eq_succ_of_ne_zero (Nat.pos_iff_ne_zero.mp hsize)
  refine ⟨?_, ?_, fun e he ↦ ?_, fun t ↦ ?_, ?_⟩
  · rw [hc, L.capacity_insert, h.capacity]
  · rw [hentries, List.map_take, List.map_cons, h.keys, htouched, recent, List.take_succ_cons,
      List.take_succ_cons, take_filter_of_not_mem habsent (Nat.le_succ n), List.take_take,
      Nat.min_eq_left (Nat.le_succ n)]
  · rw [hissued]
    rw [hentries] at he
    rcases List.mem_cons.mp (List.mem_of_mem_take he) with rfl | he
    · rw [List.lookup_cons_self, Option.map_some]
    · have hkey : e.1 ∈ (recent s.touched).take (n + 1) := h.keys ▸ List.mem_map_of_mem he
      have hne : e.1 ≠ token := fun hx ↦ habsent (hx ▸ hkey)
      rw [List.lookup_cons, beq_eq_false_iff_ne.mpr hne]
      exact h.pairs e he
  · rw [htouched, hissued, List.mem_cons, List.lookup_cons]
    by_cases hne : t = token
    · simp [hne]
    · rw [beq_eq_false_iff_ne.mpr hne, h.issued t]
      simp [hne]
  · rw [htouched, List.mem_cons, not_or]
    exact ⟨Ne.symm hgood, h.good⟩

theorem queryToken_cases (c : L.State) (token : Token) :
    ((queryToken L c token).1 = none ∧
      L.entries (queryToken L c token).2 = L.entries c) ∨
    ∃ pair, (queryToken L c token).1 = some pair ∧ L.lookup c token = some pair ∧
      L.entries (queryToken L c token).2 =
        (token, pair) :: (L.entries c).filter fun e ↦ decide (e.1 ≠ token) := by
  by_cases hbad : token = badToken
  · rw [queryToken, if_pos hbad]
    exact Or.inl ⟨rfl, rfl⟩
  · rw [queryToken_fst token hbad, queryToken, if_neg hbad]
    cases hpair : L.lookup c token with
    | none => exact Or.inl ⟨rfl, L.entries_get_none c token hpair⟩
    | some pair => exact Or.inr ⟨pair, rfl, rfl, L.entries_get c token pair hpair⟩

theorem capacity_queryToken (c : L.State) (token : Token) :
    L.capacity (queryToken L c token).2 = L.capacity c := by
  unfold queryToken
  split
  · rfl
  · exact L.capacity_get c token

theorem Recalls.query {size : ℕ} {s s' : TokenHistory L} {token : Token} (h : s.Recalls size)
    (hs : s.step (.query token) = some s') : s'.Recalls size := by
  cases hs
  have hcapacity := (capacity_queryToken s.cache token).trans h.capacity
  rcases queryToken_cases s.cache token with ⟨hnone, hsame⟩ | ⟨pair, hsome, hlookup, hentries⟩
  · refine ⟨hcapacity, ?_, ?_, ?_, ?_⟩
    all_goals simp only [hnone, hsame, Option.isSome_none, Bool.false_eq_true, if_false]
    exacts [h.keys, h.pairs, h.issued, h.good]
  · have hmem : token ∈ (recent s.touched).take size := by
      rw [← h.keys, ← L.isSome_lookup_iff, hlookup]
      rfl
    have htouched : token ∈ s.touched := mem_recent.mp (List.mem_of_mem_take hmem)
    obtain ⟨n, rfl⟩ := Nat.exists_eq_succ_of_ne_zero (show size ≠ 0 by rintro rfl; simp at hmem)
    refine ⟨hcapacity, ?_, fun e he ↦ ?_, fun t ↦ ?_, ?_⟩
    all_goals simp only [hsome, Option.isSome_some, if_true]
    · have hmap : ((L.entries s.cache).filter fun e ↦ decide (e.1 ≠ token)).map Prod.fst =
          ((L.entries s.cache).map Prod.fst).filter fun t ↦ decide (t ≠ token) := by
        rw [List.filter_map]
        rfl
      rw [hentries, List.map_cons, hmap, h.keys, recent, List.take_succ_cons,
        take_filter_of_mem (nodup_recent s.touched) hmem]
    · simp only [hentries] at he
      rcases List.mem_cons.mp he with rfl | he
      · exact h.pairs (token, pair) (L.mem_of_lookup hlookup)
      · exact h.pairs e (List.mem_of_mem_filter he)
    · rw [← h.issued t, List.mem_cons, or_iff_right_iff_imp]
      rintro rfl
      exact htouched
    · rw [List.mem_cons, not_or]
      exact ⟨fun hx ↦ h.good (hx ▸ htouched), h.good⟩

theorem reachable_recalls {size : ℕ} (hsize : 0 < size) {s : TokenHistory L}
    (h : (machine L size).Reachable s) : s.Recalls size := by
  refine Machine.Reachable.invariant ?_ (fun s event s' hs hstep ↦ ?_) h
  · refine ⟨L.capacity_make size, ?_, ?_, ?_, List.not_mem_nil⟩
    · simp [machine, tokenInit, L.entries_make, recent]
    · simp [machine, tokenInit, L.entries_make]
    · simp [machine]
  · cases event with
    | get call draws => exact hs.get hsize hstep
    | query token => exact hs.query hstep

theorem Recalls.query_issued {size : ℕ} {s : TokenHistory L} (h : s.Recalls size) {token : Token}
    {call : TokenCall} (hcall : s.issued.lookup token = some call) :
    (queryToken L s.cache token).1 =
      if (s.touched.takeWhile fun t ↦ decide (t ≠ token)).toFinset.card < size then
        some call.pair
      else none := by
  have htouched : token ∈ s.touched := (h.issued token).mpr (hcall ▸ rfl)
  have hlive : (L.lookup s.cache token).isSome ↔
      (s.touched.takeWhile fun t ↦ decide (t ≠ token)).toFinset.card < size := by
    rw [L.isSome_lookup_iff, h.keys, mem_take_recent, and_iff_right htouched]
  rw [queryToken_fst token fun hx ↦ h.good (hx ▸ htouched)]
  split
  case isTrue hlt =>
    obtain ⟨pair, hpair⟩ := Option.isSome_iff_exists.mp (hlive.mpr hlt)
    have hpairs := h.pairs (token, pair) (L.mem_of_lookup hpair)
    rw [hcall, Option.map_some] at hpairs
    rw [hpair, hpairs]
  case isFalse hle =>
    exact Option.not_isSome_iff_eq_none.mp fun hsome ↦ hle (hlive.mp hsome)

theorem Recalls.query_unissued {size : ℕ} {s : TokenHistory L} (h : s.Recalls size) {token : Token}
    (hnone : s.issued.lookup token = none) : (queryToken L s.cache token).1 = none := by
  rcases queryToken_cases s.cache token with ⟨hanswer, -⟩ | ⟨pair, -, hlookup, -⟩
  · exact hanswer
  · have hpairs := h.pairs (token, pair) (L.mem_of_lookup hlookup)
    rw [hnone] at hpairs
    cases hpairs

theorem queryToken_failed {c : L.State} {token : Token} (h : (queryToken L c token).1 = none) :
    L.entries (queryToken L c token).2 = L.entries c := by
  rcases queryToken_cases c token with ⟨-, hsame⟩ | ⟨pair, hsome, -⟩
  · exact hsame
  · rw [hsome] at h
    cases h

theorem issued_good_and_free {s s' : TokenHistory L} {call : TokenCall} {draws : List Token}
    (h : s.step (.get call draws) = some s') :
    ∃ token, s'.issued = (token, call) :: s.issued ∧ token ≠ badToken ∧
      ∀ live, (queryToken L s.cache live).1.isSome → token ≠ live := by
  obtain ⟨token, htoken, -, hissued⟩ := step_get h
  obtain ⟨hfree, hgood, -, -⟩ := getToken_some htoken
  refine ⟨token, hissued, hgood, ?_⟩
  rintro live hlive rfl
  rw [queryToken_fst token hgood, LruMap.lookup, ← L.contains_eq, hfree] at hlive
  cases hlive

/-- After every run, a token is new when it is issued, and it is known exactly
while fewer than `size` distinct others were issued or successfully queried after
it was. A failed query changes nothing. -/
theorem token_survives_iff {size : ℕ} (hsize : 0 < size) {s : TokenHistory L}
    (h : (machine L size).Reachable s) :
    (∀ call draws s', s.step (.get call draws) = some s' →
      ∃ token, s'.issued = (token, call) :: s.issued ∧ token ≠ badToken ∧
        ∀ live, (queryToken L s.cache live).1.isSome → token ≠ live) ∧
    (∀ token call, s.issued.lookup token = some call →
      (queryToken L s.cache token).1 =
        if (s.touched.takeWhile fun t ↦ decide (t ≠ token)).toFinset.card < size then
          some call.pair
        else none) ∧
    (∀ token, s.issued.lookup token = none → (queryToken L s.cache token).1 = none) ∧
    ∀ token, (queryToken L s.cache token).1 = none →
      L.entries (queryToken L s.cache token).2 = L.entries s.cache :=
  have hrecalls := reachable_recalls hsize h
  ⟨fun _ _ _ ↦ issued_good_and_free, fun _ _ ↦ hrecalls.query_issued,
    fun _ ↦ hrecalls.query_unissued, fun _ ↦ queryToken_failed⟩

theorem token_survives_two_of_three :
    ∃ s, (machine (.ofList Token UriOptions) 2).Reachable s ∧
      s.issued.map Prod.fst = [9, 7, 33] ∧
      (queryToken _ s.cache 33).1 = some ("a.tif", ["-r", "near"]) ∧
      (queryToken _ s.cache 7).1 = none := by
  let events : List TokenEvent :=
    [.get ⟨"a.tif", [some "-r", some "near", none, some "junk"]⟩ [],
      .get ⟨"b.tif", [none]⟩ [0, 33, 7], .query 33, .get ⟨"c.tif", [none]⟩ [9]]
  obtain ⟨s, hs, hissued, htouched⟩ : ∃ s, (machine (.ofList Token UriOptions) 2).run
      (machine (.ofList Token UriOptions) 2).init events = some s ∧
      s.issued = [(9, ⟨"c.tif", [none]⟩), (7, ⟨"b.tif", [none]⟩),
        (33, ⟨"a.tif", [some "-r", some "near", none, some "junk"]⟩)] ∧
      s.touched = [9, 33, 7, 33] := ⟨_, rfl, rfl, rfl⟩
  have hsurvive := token_survives_iff (by decide) ⟨events, hs⟩
  refine ⟨s, ⟨events, hs⟩, by rw [hissued]; rfl, ?_, ?_⟩
  · rw [hsurvive.2.1 33 _ (by rw [hissued]; rfl), htouched]
    rfl
  · rw [hsurvive.2.1 7 _ (by rw [hissued]; rfl), htouched]
    rfl

end TokenHistory

end GdalWarp.Bindings
