import Slipstream.Chain.Basic

/-!
This module contains the engine's error type (`error.rs`).
-/

namespace Slipstream

inductive SlipstreamError where
  | config (detail : String)
  | transport (detail : String)
  | discontinuity (at_ : Nat) (detail : String)
  | wallet (detail : String)
  | misbehavingServer
  | stopped
  | stoppedForWalletChange
  | scanContinuity (at_ : Nat)
  | wireCollapse (measuredMbps floorMbps : Float)

def SlipstreamError.isTransient : SlipstreamError → Bool
  | .transport _ => true
  | _ => false

end Slipstream
