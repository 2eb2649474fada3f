import Mathlib.Algebra.Ring.Int.Defs
import Mathlib.Algebra.Ring.Nat
import Mathlib.Data.List.Basic

/-!
This module contains the chain vocabulary the engine shares with the wallet libraries: block
heights, shielded pools and the retention a commitment carries into a note commitment tree.
-/

namespace Slipstream

inductive ShieldedPool where
  | sapling
  | orchard
  | ironwood
  deriving DecidableEq, Repr

inductive Marking where
  | none
  | marked
  | reference
  deriving DecidableEq, Repr

inductive Retention where
  | ephemeral
  | checkpoint (id : Nat) (marking : Marking)
  | marked
  | reference
  deriving DecidableEq, Repr

namespace Retention

def checkpointId : Retention → Option Nat
  | .checkpoint id _ => some id
  | _ => none

def isMarked : Retention → Bool
  | .marked => true
  | .checkpoint _ .marked => true
  | _ => false

end Retention
end Slipstream
