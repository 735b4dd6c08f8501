import GdalWarp.Foundation.Paging
import GdalWarp.Bindings.Lookup

namespace GdalWarp.Bindings

open Foundation FlatLruCache

variable {τ : Type} {n : ℕ}

/-- A call that asks for one dataset and gives back what it gets. -/
structure Visit (τ : Type) where
  thread : τ
  key : UriOptions
  opener : Opener

def Visit.Opens (v : Visit τ) : Prop := (LockedDataset.outcome v.opener v.key).warped = true

instance (v : Visit τ) : Decidable v.Opens := inferInstanceAs (Decidable (_ = true))

namespace FlatLruCache

def keys (c : FlatLruCache τ n) (slots : List (Fin n)) : List UriOptions :=
  slots.map fun i ↦ (c.values i).uriOptions

/-- No slot is in use, and the list has the filled ones, the latest use first, each
with a key of its own. -/
structure Ordered (c : FlatLruCache τ n) (slots : List (Fin n)) : Prop where
  idle : ∀ i, c.Idle i
  filled : ∀ i, i ∈ slots ↔ (c.values i).valid = true
  stamped : ∀ i ∈ slots, 0 < c.atimes i
  blank : ∀ i ∉ slots, c.atimes i = 0
  past : ∀ i, c.atimes i ≤ c.time
  latest : slots.Pairwise fun i j ↦ c.atimes j < c.atimes i
  distinct : (c.keys slots).Nodup

theorem keys_cons (c : FlatLruCache τ n) (i : Fin n) (slots : List (Fin n)) :
    c.keys (i :: slots) = (c.values i).uriOptions :: c.keys slots := rfl

theorem keys_congr {c c' : FlatLruCache τ n} {slots : List (Fin n)}
    (h : ∀ i ∈ slots, c'.values i = c.values i) : c'.keys slots = c.keys slots :=
  List.map_congr_left fun i hi ↦ congrArg LockedDataset.uriOptions (h i hi)

theorem Ordered.nodup {c : FlatLruCache τ n} {slots : List (Fin n)} (h : c.Ordered slots) :
    slots.Nodup :=
  h.latest.imp fun hlt heq ↦ by
    rw [heq] at hlt
    exact lt_irrefl _ hlt

theorem Ordered.use {c d : FlatLruCache τ n} {slots : List (Fin n)} {b : Fin n}
    (h : c.Ordered slots) (htime : c.time < 2 ^ 64 - 1)
    (hother : ∀ i, i ≠ b → d.values i = c.values i)
    (hatimes : d.atimes = Function.update c.atimes b c.tick) (htime' : d.time = c.time + 1)
    (hidle : d.Idle b) (hvalid : (d.values b).valid = true)
    (hkey : (d.values b).uriOptions ∉ c.keys (slots.erase b)) :
    d.Ordered (b :: slots.erase b) ∧
      d.keys (b :: slots.erase b) = (d.values b).uriOptions :: c.keys (slots.erase b) := by
  have htick : c.tick = c.time + 1 := Nat.mod_eq_of_lt (by omega)
  have hself : d.atimes b = c.time + 1 := by rw [hatimes, Function.update_self, htick]
  have hold {i : Fin n} (hi : i ≠ b) : d.atimes i = c.atimes i := by
    rw [hatimes, Function.update_of_ne hi]
  have hmem {i : Fin n} : i ∈ slots.erase b ↔ i ≠ b ∧ i ∈ slots := h.nodup.mem_erase_iff
  have hrest : d.keys (slots.erase b) = c.keys (slots.erase b) :=
    keys_congr fun i hi ↦ hother i (hmem.mp hi).1
  refine ⟨⟨fun i ↦ ?_, fun i ↦ ?_, fun i hi ↦ ?_, fun i hi ↦ ?_, fun i ↦ ?_, ?_, ?_⟩, ?_⟩
  · by_cases hi : i = b
    · exact hi ▸ hidle
    · rw [Idle, hother i hi]
      exact h.idle i
  · by_cases hi : i = b
    · subst hi
      exact iff_of_true List.mem_cons_self hvalid
    · rw [hother i hi, ← h.filled i, List.mem_cons, hmem]
      simp [hi]
  · by_cases hi' : i = b
    · rw [hi', hself]
      exact Nat.succ_pos _
    · rw [hold hi']
      exact h.stamped i (hmem.mp ((List.mem_cons.mp hi).resolve_left hi')).2
  · obtain ⟨hne, hi⟩ := List.ne_and_not_mem_of_not_mem_cons hi
    rw [hold hne]
    exact h.blank i fun hx ↦ hi (hmem.mpr ⟨hne, hx⟩)
  · rw [htime']
    by_cases hi : i = b
    · rw [hi, hself]
    · rw [hold hi]
      exact (h.past i).trans (Nat.le_succ _)
  · refine List.pairwise_cons.mpr ⟨fun i hi ↦ ?_, ?_⟩
    · rw [hself, hold (hmem.mp hi).1]
      exact Nat.lt_succ_of_le (h.past i)
    · refine (h.latest.sublist List.erase_sublist).imp_of_mem fun hi hj hlt ↦ ?_
      rw [hold (hmem.mp hi).1, hold (hmem.mp hj).1]
      exact hlt
  · rw [keys_cons, hrest]
    exact List.nodup_cons.mpr ⟨hkey, h.distinct.sublist (List.erase_sublist.map _)⟩
  · rw [keys_cons, hrest]

def used (c : FlatLruCache τ n) (i : Fin n) : FlatLruCache τ n :=
  { c with atimes := Function.update c.atimes i c.tick, time := c.time + 1 }

theorem touch_dec (c : FlatLruCache τ n) (i : Fin n) :
    (c.touch i).setValue i ((c.touch i).values i).dec = c.used i := by
  simp [touch, setValue, LockedDataset.inc, LockedDataset.dec, tick, used]

theorem filled_dec (c : FlatLruCache τ n) (b : Fin n) (tag : UInt64) (key : UriOptions)
    (d : DatasetH) : (c.filled b tag key d).setValue b ((c.filled b tag key d).values b).dec =
      c.replaced b tag key d := by
  simp [filled, setValue, replaced, LockedDataset.dec]

theorem Ordered.hit_iff {c : FlatLruCache τ n} {slots : List (Fin n)} (h : c.Ordered slots)
    {i : Fin n} (hi : i ∈ slots) (j : Fin n) :
    c.holding (c.values i).uriOptions j = true ↔ j = i := by
  rw [holding, Bool.and_eq_true, beq_iff_eq, ← h.filled j]
  constructor
  · rintro ⟨hj, hkey⟩
    exact List.inj_on_of_nodup_map h.distinct hj hi hkey
  · rintro rfl
    exact ⟨hi, rfl⟩

theorem Ordered.not_holding {c : FlatLruCache τ n} {slots : List (Fin n)} (h : c.Ordered slots)
    {key : UriOptions} (hkey : key ∉ c.keys slots) (j : Fin n) : c.holding key j = false := by
  rw [Bool.eq_false_iff, Ne, holding, Bool.and_eq_true, beq_iff_eq, ← h.filled j]
  rintro ⟨hj, rfl⟩
  exact hkey (List.mem_map_of_mem hj)

theorem Ordered.candidate {c : FlatLruCache τ n} {slots : List (Fin n)} (h : c.Ordered slots)
    (htime : c.time < 2 ^ 64 - 1) {b : Fin n} (hb : c.Candidate b) (key : UriOptions) :
    key :: c.keys (slots.erase b) = (key :: c.keys slots).take n := by
  have hle : slots.length ≤ n := by
    simpa using h.nodup.length_le_card
  have hevictable (j : Fin n) : c.Evictable j := ⟨h.idle j, (h.past j).trans_lt htime⟩
  rcases Nat.lt_or_ge slots.length n with hroom | hfull
  · obtain ⟨j, hj⟩ : ∃ j, j ∉ slots := by
      by_contra hall
      push Not at hall
      have hcard := Finset.card_le_card fun j (_ : j ∈ Finset.univ) ↦ List.mem_toFinset.mpr (hall j)
      rw [List.toFinset_card_of_nodup h.nodup, Finset.card_univ, Fintype.card_fin] at hcard
      omega
    have hmem : b ∉ slots := fun hx ↦ by
      have hpos := h.stamped b hx
      have hzero := h.blank j hj
      have hleast := hb.least j (hevictable j)
      omega
    rw [List.erase_of_not_mem hmem, List.take_of_length_le]
    rw [List.length_cons, keys, List.length_map]
    exact hroom
  · obtain ⟨front, z, rfl⟩ : ∃ front z, slots = front ++ [z] := by
      have hpos : 0 < slots.length := (Nat.zero_lt_of_lt b.isLt).trans_le hfull
      exact ⟨_, _, (List.dropLast_append_getLast (List.length_pos_iff.mp hpos)).symm⟩
    have hlast : b = z := by
      by_contra hne
      have hmem : b ∈ front ++ [z] := by
        by_contra hx
        have hcard := List.Nodup.length_le_card (List.nodup_cons.mpr ⟨hx, h.nodup⟩)
        rw [List.length_cons, Fintype.card_fin] at hcard
        omega
      have hin : b ∈ front := (List.mem_append.mp hmem).resolve_right (by simpa using hne)
      have hlt := (List.pairwise_append.mp h.latest).2.2 b hin z List.mem_cons_self
      have hleast := hb.least z (hevictable z)
      omega
    have hfront : b ∉ front := fun hx ↦
      (List.nodup_append.mp h.nodup).2.2 b hx b (by simp [hlast]) rfl
    rw [List.length_append, List.length_singleton] at hle hfull
    subst hlast
    rw [List.erase_append_right _ hfront, List.erase_cons_head, List.append_nil]
    have hlength : (key :: c.keys front).length = n := by
      rw [List.length_cons, keys, List.length_map]
      omega
    have happ : key :: c.keys (front ++ [b]) = (key :: c.keys front) ++ c.keys [b] :=
      congrArg (key :: ·) List.map_append
    rw [happ, List.take_left' hlength]

end FlatLruCache

namespace Session

variable [DecidableEq τ]

def visit (h : StringHash) (s : Session τ n) (v : Visit τ) : Option (Session τ n) :=
  (s.cache.get h v.thread (fun _ ↦ v.opener) s.gdal v.key 1).bind fun r ↦
    (machine h τ n).run ⟨r.cache, r.gdal, r.list.reverse ++ s.log⟩ (r.list.map .dec)

theorem visit_reachable {h : StringHash} {s s' : Session τ n} {v : Visit τ}
    (hs : (machine h τ n).Reachable s) (hv : s.visit h v = some s') :
    (machine h τ n).Reachable s' := by
  obtain ⟨r, hr, hrun⟩ := Option.bind_eq_some_iff.mp hv
  refine Machine.run_invariant (I := (machine h τ n).Reachable)
    (fun _ _ _ hs hstep ↦ hs.step hstep) ?_ hrun
  exact hs.step (e := .get v.thread v.key 1 fun _ ↦ v.opener)
    (Option.map_eq_some_iff.mpr ⟨r, hr, rfl⟩)

theorem visit_found {h : StringHash} {s : Session τ n} {v : Visit τ} {i : Fin n}
    (hfind : s.cache.find (hashUriOptions h v.key) v.key = ([i], s.cache.touch i)) :
    s.visit h v = some ⟨s.cache.used i, s.gdal, i :: s.log⟩ := by
  rw [visit, FlatLruCache.get, hfind]
  exact congrArg (fun c ↦ some (Session.mk c s.gdal (i :: s.log))) (touch_dec s.cache i)

theorem visit_filled {h : StringHash} {s : Session τ n} {v : Visit τ} {b : Fin n} {g : Gdal}
    (hfind : s.cache.find (hashUriOptions h v.key) v.key = ([], s.cache))
    (hone : insertOne v.thread (hashUriOptions h v.key) v.key v.opener ⟨[], s.cache, s.gdal⟩ =
      some ⟨[b], s.cache.filled b (hashUriOptions h v.key) v.key s.gdal.issued, g⟩) :
    s.visit h v = some ⟨s.cache.replaced b (hashUriOptions h v.key) v.key s.gdal.issued, g,
      b :: s.log⟩ := by
  have hrequest : (request 1 ([] : List (Fin n)).length).missing = 1 := rfl
  rw [visit, FlatLruCache.get, hfind, hrequest, insertLoop, insertLoop, Option.bind_some, hone]
  exact congrArg (fun c ↦ some (Session.mk c g (b :: s.log)))
    (filled_dec s.cache b (hashUriOptions h v.key) v.key s.gdal.issued)

def Recalls (s : Session τ n) (keys : List UriOptions) : Prop :=
  ∃ slots, s.cache.Ordered slots ∧ s.cache.keys slots = keys

/-- A visit that can open its dataset does what a request does to a list of `n` keys,
and opens the dataset if its key is not on the list. -/
theorem visit_eq {h : StringHash} (hempty : h "" ≠ 0) (hn : 0 < n) {s : Session τ n}
    (hs : (machine h τ n).Reachable s) {keys : List UriOptions} (hk : s.Recalls keys)
    (htime : s.cache.time < 2 ^ 64 - 1) {v : Visit τ} (hv : v.Opens) :
    ∃ s', s.visit h v = some s' ∧ s'.Recalls (Paging.lru n keys v.key) ∧
      s'.cache.time = s.cache.time + 1 ∧
      s'.gdal.opens.length = s.gdal.opens.length + Paging.lruMisses n keys [v.key] := by
  obtain ⟨slots, ho, rfl⟩ := hk
  have hhit := hit_eq_holding hempty hs v.key
  by_cases hmem : v.key ∈ s.cache.keys slots
  · obtain ⟨i, hi, hkey⟩ := List.mem_map.mp hmem
    have hfind : s.cache.find (hashUriOptions h v.key) v.key = ([i], s.cache.touch i) := by
      rw [find_eq, hhit, ← hkey,
        filter_eq_singleton (List.nodup_finRange n) (List.mem_finRange i) (ho.hit_iff hi)]
      rfl
    obtain ⟨hordered, hlist⟩ := ho.use (d := s.cache.used i) htime (fun _ _ ↦ rfl) rfl rfl
      (ho.idle i) ((ho.filled i).mp hi) (not_mem_map_erase ho.distinct hi)
    refine ⟨_, visit_found hfind, ⟨_, hordered, ?_⟩, rfl, ?_⟩
    · have herase : s.cache.keys (slots.erase i) = _ := map_erase ho.distinct hi
      rw [hlist, herase, Paging.lru, if_pos hmem, ← hkey]
      rfl
    · rw [Paging.lruMisses, if_pos hmem]
      rfl
  · have hfind : s.cache.find (hashUriOptions h v.key) v.key = ([], s.cache) := by
      rw [find_eq, hhit, List.filter_eq_nil_iff.mpr fun j _ ↦ by simp [ho.not_holding hmem j]]
      rfl
    rcases insertOne_cases v.thread (hashUriOptions h v.key) v.key v.opener ⟨[], s.cache, s.gdal⟩
      with ⟨hnone, -⟩ | ⟨b, hb, ⟨hfail, -⟩ | ⟨hopen, hone⟩⟩
    · exact absurd ⟨ho.idle ⟨0, hn⟩, (ho.past ⟨0, hn⟩).trans_lt htime⟩ (hnone ⟨0, hn⟩)
    · rw [hv] at hfail
      cases hfail
    · have hval : (s.cache.replaced b (hashUriOptions h v.key) v.key s.gdal.issued).values b =
          ⟨some s.gdal.issued, some (s.gdal.issued + 1), v.key, none, 0⟩ := by simp [replaced]
      have hfresh : v.key ∉ s.cache.keys (slots.erase b) :=
        fun hx ↦ hmem ((List.erase_sublist.map _).subset hx)
      obtain ⟨hordered, hlist⟩ := ho.use
        (d := s.cache.replaced b (hashUriOptions h v.key) v.key s.gdal.issued) htime
        (fun j hj ↦ Function.update_of_ne hj ..) rfl rfl (by rw [Idle, hval]; exact ⟨rfl, rfl⟩)
        (by rw [hval]; rfl) (by rw [hval]; exact hfresh)
      refine ⟨_, visit_filled hfind hone, ⟨_, hordered, ?_⟩, rfl, ?_⟩
      · rw [hlist, hval, Paging.lru, if_neg hmem]
        exact ho.candidate htime hb v.key
      · rw [Paging.lruMisses, if_neg hmem, LockedDataset.close_opens]
        rfl

def visitAll (h : StringHash) (s : Session τ n) (visits : List (Visit τ)) : Option (Session τ n) :=
  visits.foldlM (visit h) s

theorem visitAll_eq {h : StringHash} (hempty : h "" ≠ 0) (hn : 0 < n) {visits : List (Visit τ)}
    {s : Session τ n} (hs : (machine h τ n).Reachable s) {keys : List UriOptions}
    (hk : s.Recalls keys) (htime : s.cache.time + visits.length < 2 ^ 64)
    (hopen : ∀ v ∈ visits, v.Opens) :
    ∃ s', s.visitAll h visits = some s' ∧
      s'.Recalls ((visits.map Visit.key).foldl (Paging.lru n) keys) ∧
      s'.gdal.opens.length =
        s.gdal.opens.length + Paging.lruMisses n keys (visits.map Visit.key) := by
  induction visits generalizing s keys with
  | nil => exact ⟨s, rfl, hk, rfl⟩
  | cons v visits ih =>
    obtain ⟨hv, hopen⟩ := List.forall_mem_cons.mp hopen
    rw [List.length_cons] at htime
    obtain ⟨u, hu, hrecalls, htime', hopens⟩ := visit_eq hempty hn hs hk (by omega) hv
    obtain ⟨s', hs', hlist, hcount⟩ := ih (visit_reachable hs hu) hrecalls (by omega) hopen
    refine ⟨s', ?_, hlist, ?_⟩
    · rw [visitAll, List.foldlM_cons, hu]
      exact hs'
    · rw [hcount, hopens, List.map_cons, Paging.lruMisses_cons n keys v.key (visits.map Visit.key),
        Nat.add_assoc]

theorem fresh_recalls (h : StringHash) : ((machine h τ n).init : Session τ n).Recalls [] := by
  refine ⟨[], ⟨fun i ↦ ⟨rfl, rfl⟩, fun i ↦ ?_, nofun, fun i _ ↦ rfl, fun i ↦ le_rfl,
    List.Pairwise.nil, List.nodup_nil⟩, rfl⟩
  exact iff_of_false List.not_mem_nil nofun

/-- A cache that one call at a time uses is a list of its `n` latest keys: it holds
their datasets, and it opens one exactly when the key is not on the list. -/
theorem visits_follow_list {h : StringHash} (hempty : h "" ≠ 0) (hn : 0 < n)
    {visits : List (Visit τ)} (hlength : visits.length < 2 ^ 64) (hopen : ∀ v ∈ visits, v.Opens) :
    ∃ s : Session τ n, (machine h τ n).init.visitAll h visits = some s ∧
      (∀ key, (∃ i, s.cache.holding key i = true) ↔
        key ∈ (visits.map Visit.key).foldl (Paging.lru n) []) ∧
      s.gdal.opens.length = Paging.lruMisses n [] (visits.map Visit.key) := by
  have hstart : 0 + visits.length < 2 ^ 64 := by omega
  obtain ⟨s, hs, ⟨slots, ho, hkeys⟩, hcount⟩ := visitAll_eq hempty hn
    (Machine.Reachable.start (M := machine h τ n)) (fresh_recalls h) hstart hopen
  refine ⟨s, hs, fun key ↦ ?_, hcount.trans (Nat.zero_add _)⟩
  rw [← hkeys, keys, List.mem_map]
  refine exists_congr fun i ↦ ?_
  rw [holding, Bool.and_eq_true, beq_iff_eq, ho.filled i]

theorem visits_follow_list_third_key : ∃ s : Session Unit 2,
    (machine terminatedHash Unit 2).init.visitAll terminatedHash
      [⟨(), ("a.tif", []), answering true true⟩, ⟨(), ("b.tif", []), answering true true⟩,
        ⟨(), ("a.tif", []), answering true true⟩, ⟨(), ("c.tif", []), answering true true⟩,
        ⟨(), ("b.tif", []), answering true true⟩] = some s ∧
    s.gdal.opens.length = 4 ∧ ¬ ∃ i, s.cache.holding ("a.tif", []) i = true := by
  have hopen : ∀ v ∈ ([⟨(), ("a.tif", []), answering true true⟩,
      ⟨(), ("b.tif", []), answering true true⟩, ⟨(), ("a.tif", []), answering true true⟩,
      ⟨(), ("c.tif", []), answering true true⟩, ⟨(), ("b.tif", []), answering true true⟩] :
      List (Visit Unit)), v.Opens := by decide
  obtain ⟨s, hs, hholding, hopens⟩ := visits_follow_list (n := 2) (h := terminatedHash)
    (by decide) (by decide) (by decide) hopen
  refine ⟨s, hs, hopens.trans (by decide), ?_⟩
  rw [hholding]
  decide

/-- Any other way of keeping at most `n` datasets, even one that knows all calls to
come, opens at most `n` times fewer, apart from what fills the cache. -/
theorem opens_competitive {h : StringHash} (hempty : h "" ≠ 0) {visits : List (Visit τ)}
    (hlength : visits.length < 2 ^ 64) (hopen : ∀ v ∈ visits, v.Opens) {s : Session τ n}
    (hs : (machine h τ n).init.visitAll h visits = some s) {kept : Finset UriOptions}
    (hkept : kept.card ≤ n) {misses : ℕ}
    (hschedule : Paging.Schedule n kept (visits.map Visit.key) misses) :
    s.gdal.opens.length ≤ n * misses + n := by
  rcases Nat.eq_zero_or_pos n with rfl | hn
  · obtain rfl : visits = [] := List.map_eq_nil_iff.mp hschedule.eq_nil
    cases hs
    exact Nat.zero_le _
  · have hstart : 0 + visits.length < 2 ^ 64 := by omega
    obtain ⟨s', hs', -, hcount⟩ := visitAll_eq hempty hn
      (Machine.Reachable.start (M := machine h τ n)) (fresh_recalls h) hstart hopen
    obtain rfl := Option.some.inj (hs.symm.trans hs')
    rw [hcount]
    exact (Nat.zero_add _).trans_le (Paging.lruMisses_le hschedule hkept)

theorem opens_competitive_third_key : ∃ s : Session Unit 2,
    (machine terminatedHash Unit 2).init.visitAll terminatedHash
      [⟨(), ("a.tif", []), answering true true⟩, ⟨(), ("b.tif", []), answering true true⟩,
        ⟨(), ("c.tif", []), answering true true⟩] = some s ∧
    s.gdal.opens.length ≤ 2 * 3 + 2 := by
  have hs : (machine terminatedHash Unit 2).init.visitAll terminatedHash
      [⟨(), ("a.tif", []), answering true true⟩, ⟨(), ("b.tif", []), answering true true⟩,
        ⟨(), ("c.tif", []), answering true true⟩] = some _ := rfl
  have hschedule : Paging.Schedule 2 (∅ : Finset UriOptions)
      [("a.tif", []), ("b.tif", []), ("c.tif", [])] _ :=
    .cons (t := {("a.tif", [])}) ⟨by decide, by decide, by decide⟩
      (.cons (t := {("a.tif", []), ("b.tif", [])}) ⟨by decide, by decide, by decide⟩
        (.cons (t := {("a.tif", []), ("c.tif", [])}) ⟨by decide, by decide, by decide⟩ (.nil _)))
  have hle := opens_competitive (by decide) (by decide) (by decide) hs (by decide) hschedule
  exact ⟨_, hs, hle.trans (by decide)⟩

end Session

end GdalWarp.Bindings
