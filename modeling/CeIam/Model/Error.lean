import Mathlib.Init

/-! # The ways an operation of the service can fail -/

namespace CeIam

inductive IamError where
  | badPolicy (message : String)
  | badResource (message : String)
  | badAction (message : String)
  | denyUnsupported
  | malformedChain (message : String)
  | badPrincipal (message : String)
  | wouldAmplify (message : String)
  | denied (message : String)
  | identity (message : String)
  | node (message : String)
deriving DecidableEq

def IamError.display : IamError → String
  | .badPolicy m => "bad policy: " ++ m
  | .badResource m => "bad resource: " ++ m
  | .badAction m => "bad action: " ++ m
  | .denyUnsupported =>
      "Effect::Deny is not expressible as a capability; model deny by not granting the action"
  | .malformedChain m => "malformed capability chain: " ++ m
  | .badPrincipal m => "bad principal: " ++ m
  | .wouldAmplify m => "attenuation would amplify authority: " ++ m
  | .denied m => "denied: " ++ m
  | .identity m => "identity error: " ++ m
  | .node m => "node error: " ++ m

end CeIam
