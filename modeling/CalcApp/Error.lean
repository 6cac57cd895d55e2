import CalcApp.Label

namespace CalcApp

inductive GenerateError where
  | capacityExceeded (max : Nat)
  | menuOverflow (label : Label) (max : Nat)
  | invalidParent (label : Label)
  | invalidRoot
  deriving DecidableEq

namespace GenerateError

def fatal : GenerateError → Bool
  | capacityExceeded _ => true
  | menuOverflow _ _ => false
  | invalidParent _ => false
  | invalidRoot => true

def message : GenerateError → Text
  | capacityExceeded max =>
    "Too many pages: exceeded ".toList ++ Text.ofNat max ++ " unique labels.".toList
  | menuOverflow label max =>
    "Menu ".toList ++ label.text ++ " cannot have more than ".toList ++ Text.ofNat max ++
      " options (incl. navigation)".toList
  | invalidParent label => "Parent ".toList ++ label.text ++ " is not a valid menu".toList
  | invalidRoot => "The root of the app structure must be a menu".toList

end GenerateError

inductive ParseError where
  | rootMenuNotFound
  | unresolvedLabel (label : Label)
  | cyclicMenu (label : Label)
  | sharedMenu (label : Label)
  deriving DecidableEq

def ParseError.message : ParseError → Text
  | rootMenuNotFound => "Root menu not found".toList
  | unresolvedLabel label =>
    "Label ".toList ++ label.text ++ " is referenced but never defined".toList
  | cyclicMenu label => "Menu ".toList ++ label.text ++ " is reachable from itself".toList
  | sharedMenu label => "Menu ".toList ++ label.text ++ " is listed under more than one entry".toList

end CalcApp
