import DomiconExec.Pool.Retention
import DomiconExec.Pool.Step

namespace FilePool

open Sql Db

def toJournal (fp : FilePool) : GoMap Hash Ref :=
  fp.collector

namespace Journal

-- What a rotation finds around the journal, and which of its steps fail.
structure Disk where
  heap : Heap
  -- The order in which the map is ranged over.
  order : IterOrder Hash
  closeError : Option GoError
  createError : Option GoError
  writeError : Ref → Option GoError
  renameError : Option GoError
  openError : Option GoError

abbrev Update :=
  EStateM GoError Journal

def raise : Option GoError → Update Unit
  | none     => pure ()
  | some err => throw err

def dump (d : Disk) : List Ref → Update (List (Ref × Bytes))
  | [] => return []
  | fd :: fds => do
    match (d.heap fd).encode with
    | .error .negativeBigInt => throw ⟨"rlp: cannot encode negative big.Int"⟩
    | .ok b =>
      raise (d.writeError fd)
      return (fd, b) :: (← dump d fds)

def closeWriter (d : Disk) : Update Unit := do
  if (← get).writer = some .sink then
    raise d.closeError
  modify fun j => { j with writer := none }

-- The file is only replaced once the new one is complete. There is no writer after an error, unless
-- closing the previous one has failed.
def rotate (d : Disk) (all : GoMap Hash Ref) : Update Unit := do
  closeWriter d
  raise d.createError
  let file ← dump d <| (d.order.list all.keys).filterMap all.get
  raise d.renameError
  modify fun j => { j with file }
  raise d.openError
  modify fun j => { j with writer := some .sink }

def contents (j : Journal) : Bytes :=
  (j.file.map Prod.snd).flatten

inductive LoadError
  | os (err : GoError)
  | rlp (err : Rlp.DecodeError)

-- The function that `load` passes the data to. The errors for the data are only counted.
abbrev Add (σ : Type) :=
  σ → List DA → Except GoPanic σ

-- The variables of the loop of `load`.
structure Replay (σ : Type) where
  state : σ
  batch : List DA

namespace Replay

variable {σ : Type}

def loadBatch (add : Add σ) (s : Replay σ) : Except GoPanic (Replay σ) := do
  return ⟨← add s.state s.batch, []⟩

def loadOver (add : Add σ) (n : Nat) (s : Replay σ) : Except GoPanic (Replay σ) :=
  if s.batch.length > n then s.loadBatch add else .ok s

-- The loop is cut off after as many rounds as there are bytes, which does not happen.
def loop (add : Add σ) : Nat → Rlp.Stream → Replay σ →
    Except GoPanic (σ × Option Rlp.DecodeError)
  | 0, _, s => .ok (s.state, some .outOfFuel)
  | fuel + 1, stream, s =>
    match Rlp.Stream.decode DA.info .zero stream with
    | .error err _ => do
      let s ← s.loadOver add 0
      return (s.state, if err ≠ .eof then some err else none)
    | .ok fd stream => do
      let s ← loadOver add 1024 { s with batch := s.batch ++ [fd] }
      loop add fuel stream s

end Replay

-- The pool that is loaded, with the data that was decoded so far.
structure Loading where
  pool : FilePool
  mem : List DA

def Loading.heap (s : Loading) : Heap :=
  fun fd => s.mem.getD fd .zero

def Loading.add (env : Env) (isLocal : Bool) : Add Loading := fun s batch => do
  let s' : Loading := { s with mem := s.mem ++ batch }
  let fds := List.range' s.mem.length batch.length
  let r ← s.pool.add { env with heap := s'.heap } fds isLocal
  return { s' with pool := r.pool }

-- Loads the file of `j` into its pool. Nothing is written to it meanwhile. A missing file is an
-- empty one.
def load (env : Env) (openError : Option GoError) (isLocal : Bool) (fp : FilePool) (j : Journal) :
    Except GoPanic (Loading × Option LoadError) :=
  match openError with
  | some err => .ok (⟨fp, []⟩, some (.os err))
  | none => do
    let fp := { fp with journal := some { j with writer := some .devNull } }
    let (s, failure) ← Replay.loop (Loading.add env isLocal) (j.contents.length + 1)
      (.reset j.contents 0) ⟨⟨fp, []⟩, []⟩
    let journal := s.pool.journal.map fun j => { j with writer := none }
    return ({ s with pool := { s.pool with journal } }, failure.map .rlp)

end Journal

open Journal

-- The error of the rotation is only logged.
def rejournal (d : Disk) (fp : FilePool) : FilePool :=
  match fp.journal with
  | none => fp
  | some j =>
    match rotate d fp.toJournal j with
    | .ok _ j    => { fp with journal := some j }
    | .error _ j => { fp with journal := some j }

structure Boot where
  env : Env
  openError : Option GoError
  disk : Disk
  setBytes : SetBytes
  records : Table DARow

def initJournal (b : Boot) (fp : FilePool) : Except GoPanic FilePool :=
  match fp.journal with
  | none => .ok fp
  | some j => do
    let (s, _) ← load b.env b.openError (!fp.config.journalRemote) fp j
    return s.pool.rejournal { b.disk with heap := s.heap }

def init (b : Boot) (fp : FilePool) : Except GoPanic FilePool :=
  initDiskCache b.setBytes b.records <$> initJournal b fp

def reopen (path : String) (fp : FilePool) : FilePool :=
  let fresh := new fp.config path fp.nodeType
  let file := (fp.journal.map Journal.file).getD []
  { fresh with journal := fresh.journal.map fun j => { j with file } }

namespace Journal

inductive Op
  | pool (e : FilePool.Event)
  | rotate (d : Disk)
  | restart (b : Boot)

def step (path : String) (fp : FilePool) : Op → Except GoPanic FilePool
  | .pool e    => fp.step e
  | .rotate d  => .ok (fp.rejournal d)
  | .restart b => init b (fp.reopen path)

-- The runs of a node over several starts. It finds a file with some contents.
def machine (config : Config) (path nodeType : String) (file : List (Ref × Bytes)) :
    Transition.System FilePool Op GoPanic where
  init :=
    let fp := new config path nodeType
    { fp with journal := fp.journal.map fun j => { j with file } }
  step := step path

end Journal
end FilePool
