import DomiconExec.Primitives.GoMap
import DomiconExec.Objects.DA

namespace DA

-- The hash by which the pool tells whether it knows the data.
def key (da : DA) : Hash :=
  if da.txHash ≠ .zero then da.txHash else da.commitment.hash

def commitIsEmpty (da : DA) : Bool :=
  da.commitment.x.isZero && da.commitment.y.isZero

end DA

namespace FilePool

-- A reference to data in memory. Other components change the data of the pool as well, so each
-- operation is given the contents of the memory at its time.
abbrev Ref :=
  Nat

abbrev Heap :=
  Ref → DA

-- The index of the pool, and the number of slots that are in use.
structure Lookup where
  slots : Int
  collector : GoMap Hash Ref

namespace Lookup

def newLookup : Lookup where
  slots := 0
  collector := ∅

def get (t : Lookup) (hash : Hash) : Option Ref :=
  t.collector.get hash

def add (t : Lookup) (fd : Ref) (da : DA) : Lookup :=
  let t := { t with slots := t.slots + 1 }
  if da.txHash ≠ .zero ∧ da.commitIsEmpty then
    { t with collector := t.collector.set da.txHash fd }
  else if da.txHash ≠ .zero ∧ ¬da.commitIsEmpty then
    { t with collector := t.collector.set da.txHash fd |>.set da.commitment.hash fd }
  else if da.txHash = .zero ∧ ¬da.commitIsEmpty then
    { t with collector := t.collector.set da.commitment.hash fd }
  else
    t

def remove (t : Lookup) (hash : Hash) : Lookup where
  slots := t.slots - 1
  collector := t.collector.del hash

end Lookup

structure Env where
  heap : Heap
  now : GoTime
  -- The errors of the library that verifies the proofs of commitments.
  initMultiAdaptiveSdk : Option GoError
  verifyCommitWithProof : (commit proof claimedValue : Bytes) → Option GoError
  -- The number of bytes that still reach the journal if writing some data to it fails.
  writeError : Ref → Option (Nat × GoError)

namespace Journal

inductive Writer
  | devNull
  | sink
deriving DecidableEq

def errNoActiveJournal : GoError :=
  ⟨"no active journal"⟩

end Journal

structure Journal where
  writer : Option Journal.Writer
  file : List (Ref × Bytes)

namespace Journal

def newFdJournal : Journal where
  writer := none
  file := []

def append (env : Env) (j : Journal) (fd : Ref) (b : Bytes) : Journal × Option GoError :=
  match env.writeError fd with
  | none          => ({ j with file := j.file ++ [(fd, b)] }, none)
  | some (n, err) => ({ j with file := j.file ++ [(fd, b.take n)] }, some err)

def insert (env : Env) (j : Journal) (fd : Ref) : Journal × Option GoError :=
  match j.writer with
  | none => (j, some errNoActiveJournal)
  | some writer =>
    match (env.heap fd).encode with
    | .error .negativeBigInt => (j, some ⟨"rlp: cannot encode negative big.Int"⟩)
    | .ok b =>
      match writer with
      | .devNull => (j, none)
      | .sink    => j.append env fd b

end Journal

structure Config where
  journalRemote : Bool
  globalSlots : UInt64

def DefaultConfig : Config where
  journalRemote := true
  globalSlots := 4096

end FilePool

open FilePool in
structure FilePool where
  config : Config
  nodeType : String
  all : Lookup
  journal : Option Journal
  -- The time at which the data that is stored on disk was received.
  diskCache : GoMap Hash GoTime
  collector : GoMap Hash Ref
  beats : GoMap Hash GoTime

namespace FilePool

def new (config : Config) (path nodeType : String) : FilePool where
  config := config
  nodeType := nodeType
  all := .newLookup
  journal := if config.journalRemote ∧ path ≠ "" then some .newFdJournal else none
  diskCache := ∅
  collector := ∅
  beats := ∅

end FilePool
