import DomiconExec.Pool.Journal

namespace FilePool.Journal

variable {σ : Type}

-- A function on a state of its own, which returns the data it has inserted into the journal.
abbrev Inserting (σ : Type) :=
  σ → List DA → Except GoPanic (σ × List (Env × Ref))

def Inserting.add (f : Inserting σ) : Add (Journal × σ) := fun s batch => do
  let r ← f s.snd batch
  return (r.snd.foldl (fun j x => (j.insert x.fst x.snd).fst) s.fst, r.fst)

-- The method `load` for any function. A file that does not exist is treated as an empty one.
def replay (f : Inserting σ) (openError : Option GoError) (state : σ) (j : Journal) :
    Except GoPanic (σ × Journal × Option LoadError) :=
  match openError with
  | some err => .ok (state, j, some (.os err))
  | none => do
    let (s, failure) ← Replay.loop f.add (j.contents.length + 1) (.reset j.contents 0)
      ⟨({ j with writer := some .devNull }, state), []⟩
    return (s.snd, { s.fst with writer := none }, failure.map .rlp)

end FilePool.Journal
