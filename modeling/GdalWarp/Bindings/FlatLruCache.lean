import GdalWarp.Bindings.LockedDataset
import Mathlib.Data.List.FinRange
import Mathlib.Logic.Function.Basic

namespace GdalWarp.Bindings

/-- `time` and `size` count the increments of `m_time` and `m_size`, whose
values are the remainders modulo `2 ^ 64`. -/
structure FlatLruCache (τ : Type) (n : ℕ) where
  tags : Fin n → UInt64
  atimes : Fin n → ℕ
  values : Fin n → LockedDataset τ
  time : ℕ
  size : ℕ

namespace FlatLruCache

variable {τ : Type} [DecidableEq τ] {n : ℕ}

def atimeMax : ℕ := 2 ^ 64 - 1

def tick (c : FlatLruCache τ n) : ℕ := (c.time + 1) % 2 ^ 64

def setValue (c : FlatLruCache τ n) (i : Fin n) (ld : LockedDataset τ) : FlatLruCache τ n :=
  { c with values := Function.update c.values i ld }

def fresh (τ : Type) (n : ℕ) : FlatLruCache τ n :=
  ⟨fun _ ↦ 0, fun _ ↦ 0, fun _ ↦ .empty, 0, 0⟩

def clearSlot (t : τ) (s : FlatLruCache τ n × Gdal) (i : Fin n) :
    Option (FlatLruCache τ n × Gdal) := do
  let locked := ((s.1.values i).lockForDeletion t).2
  let moved ← locked.moveAssign t s.2 .empty
  some ({ s.1 with tags := Function.update s.1.tags i 0
                   atimes := Function.update s.1.atimes i 0
                   values := Function.update s.1.values i moved.1.1
                   size := 0 },
    (moved.1.2.close moved.2).2)

def clear (t : τ) (c : FlatLruCache τ n) (g : Gdal) : Option (FlatLruCache τ n × Gdal) :=
  (List.finRange n).foldlM (clearSlot t) (c, g)

def capacity (_ : FlatLruCache τ n) : ℕ := n

def reportedSize (c : FlatLruCache τ n) : ℕ := min c.capacity (c.size % 2 ^ 64)

def destroy (c : FlatLruCache τ n) (g : Gdal) : Gdal :=
  (List.finRange n).foldl (fun g i ↦ ((c.values i).close g).2) g

def hit (c : FlatLruCache τ n) (tag : UInt64) (key : UriOptions) (i : Fin n) : Bool :=
  c.tags i == tag && (c.values i).uriOptions == key

def contains (h : StringHash) (c : FlatLruCache τ n) (key : UriOptions) : Bool :=
  (List.finRange n).any (c.hit (hashUriOptions h key) key)

def count (h : StringHash) (c : FlatLruCache τ n) (key : UriOptions) : ℕ :=
  (List.finRange n).countP (c.hit (hashUriOptions h key) key)

/-- One index of the read-locked loop of `get`. -/
def findStep (tag : UInt64) (key : UriOptions) (s : List (Fin n) × FlatLruCache τ n) (i : Fin n) :
    List (Fin n) × FlatLruCache τ n :=
  if s.2.hit tag key i then
    (s.1 ++ [i],
      { s.2.setValue i (s.2.values i).inc with
          atimes := Function.update s.2.atimes i s.2.tick
          time := s.2.time + 1 })
  else s

def find (tag : UInt64) (key : UriOptions) (c : FlatLruCache τ n) :
    List (Fin n) × FlatLruCache τ n :=
  (List.finRange n).foldl (findStep tag key) ([], c)

structure Scan (τ : Type) (n : ℕ) where
  values : Fin n → LockedDataset τ
  -- an `int` in the source, -1 for none; the model is of fewer than 2 ^ 31 slots
  bestIndex : Option (Fin n)
  bestAtime : ℕ

def scanStep (t : τ) (c : FlatLruCache τ n) (s : Scan τ n) (i : Fin n) : Scan τ n :=
  if c.atimes i < s.bestAtime then
    let locked := (s.values i).lockForDeletion t
    let values := Function.update s.values i locked.2
    if locked.1 then
      match s.bestIndex with
      | none => ⟨values, some i, c.atimes i⟩
      | some b => ⟨Function.update values b ((values b).unlock t), some i, c.atimes i⟩
    else { s with values := values }
  else s

def scan (t : τ) (c : FlatLruCache τ n) : Scan τ n :=
  (List.finRange n).foldl (scanStep t c) ⟨c.values, none, atimeMax⟩

structure Inserted (τ : Type) (n : ℕ) where
  result : Option (Fin n)
  cache : FlatLruCache τ n
  gdal : Gdal

def insert (t : τ) (o : Opener) (g : Gdal) (c : FlatLruCache τ n) (tag : UInt64)
    (key : UriOptions) : Option (Inserted τ n) :=
  let s := c.scan t
  let c := { c with values := s.values }
  match s.bestIndex with
  | none => some ⟨none, c, g⟩
  | some b => do
    let ds ← LockedDataset.construct t o g key
    if ds.1.valid then
      let moved ← (c.values b).moveAssign t ds.2 ds.1
      some ⟨some b, { tags := Function.update c.tags b tag
                      atimes := Function.update c.atimes b c.tick
                      values := Function.update c.values b moved.1.1
                      time := c.time + 1
                      size := c.size + 1 },
        (moved.1.2.close moved.2).2⟩
    else some ⟨none, c, (ds.1.close ds.2).2⟩

/-- What `get` still wants after the read-locked loop found `found` datasets:
inserts under the write lock, or under the write lock if it is free. -/
inductive Request where
  | hard (missing : ℕ)
  | soft (missing : ℕ)
  | nothing
  deriving DecidableEq

def request (copies : ℤ) (found : ℕ) : Request :=
  let copies2 := if copies < 0 then 1 else copies
  if copies2 > 0 ∧ found < copies2 then .hard (copies2 - found).toNat
  else if copies ≤ 0 ∧ found < -copies then .soft (-copies - found).toNat
  else .nothing

def Request.missing : Request → ℕ
  | .hard k | .soft k => k
  | .nothing => 0

structure Got (τ : Type) (n : ℕ) where
  list : List (Fin n)
  cache : FlatLruCache τ n
  gdal : Gdal

/-- One turn of the write-locked loop of `get`. -/
def insertOne (t : τ) (tag : UInt64) (key : UriOptions) (o : Opener) (s : Got τ n) :
    Option (Got τ n) := do
  let r ← s.cache.insert t o s.gdal tag key
  match r.result with
  | none => some ⟨s.list, r.cache, r.gdal⟩
  | some b => some ⟨s.list ++ [b], r.cache.setValue b (r.cache.values b).inc, r.gdal⟩

def insertLoop (t : τ) (tag : UInt64) (key : UriOptions) (o : ℕ → Opener) :
    ℕ → Got τ n → Option (Got τ n)
  | 0, s => some s
  | j + 1, s => (insertLoop t tag key o j s).bind (insertOne t tag key (o j))

/-- `get` with no other thread about: the write lock is always to be had. -/
def get (h : StringHash) (t : τ) (o : ℕ → Opener) (g : Gdal) (c : FlatLruCache τ n)
    (key : UriOptions) (copies : ℤ) : Option (Got τ n) :=
  let found := c.find (hashUriOptions h key) key
  insertLoop t (hashUriOptions h key) key o (request copies found.1.length).missing
    ⟨found.1, found.2, g⟩

end FlatLruCache

end GdalWarp.Bindings
