import SharedLog.LayoutAccess

/-!
Stores whose condition is a state. A store is asked for its layout and told to keep another one, and either may
fail. Of a store that works as it should (`Disk.Lawful`), a save that goes well is what is read from then on, and
one that fails has changed nothing that can be read.
-/

namespace SharedLog

/-- A store for layouts: what is read from it in each condition, and what saving a layout does to it. -/
structure Disk (S : Type) where
  load : S → Result (Option Layout)
  save : Layout → S → Result Unit × S

/-- The epoch of a stored layout; that of no layout if there is none. -/
def heldEpoch : Option Layout → Epoch
  | none => .invalid
  | some l => l.epoch

namespace Disk

variable {S : Type}

/-- The store as a part of programs that hold its condition. -/
def store {m : Type → Type} [Monad m] [MonadStateOf S m] (disk : Disk S) : LayoutStore m where
  load := return disk.load (← getThe S)
  save l := modifyGetThe S (disk.save l)

/-- What is saved is kept whole, or not at all. -/
structure Lawful (disk : Disk S) : Prop where
  saved : ∀ l s, (disk.save l s).1 = .ok () → disk.load (disk.save l s).2 = .ok (some l)
  kept : ∀ l s e, (disk.save l s).1 = .error e → disk.load (disk.save l s).2 = disk.load s

/-- A store that holds its layout itself. If it is full, every save fails. -/
def plain (full : Bool) : Disk (Option Layout) where
  load s := .ok s
  save l s := if full then (.error (.storage "disk full"), s) else (.ok (), some l)

theorem load_plain (full : Bool) (held : Option Layout) : (plain full).load held = .ok held := rfl

theorem save_plain (l : Layout) (held : Option Layout) : (plain false).save l held = (.ok (), some l) := rfl

theorem lawful_plain (full : Bool) : (plain full).Lawful := by
  cases full with
  | true => exact { saved := fun _ _ h => (nomatch h), kept := fun _ _ _ _ => rfl }
  | false => exact { saved := fun _ _ _ => rfl, kept := fun _ _ _ h => (nomatch h) }

end Disk

end SharedLog
