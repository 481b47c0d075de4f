import ApiManifest.Data.Tree
import ApiManifest.Number.Numeral

/-!
# Options

The switches of a run, and how a mapping of settings sets them.
-/

namespace ApiManifest

/-- The switches of a run. -/
structure Options where
  /-- Properties show example values. -/
  examples : Bool := true
  /-- Properties carry the validator of their type. -/
  validators : Bool := true
  /-- Operations carry a gateway integration. -/
  apiGateway : Bool := false
  /-- What the example providers start from, a fixed number if it is not set. -/
  seed : Option Int := none
  deriving DecidableEq, Repr, Inhabited

/-- The integer that a setting stands for: the integer part of a number, or what a text or the
text of some bytes names. -/
def Tree.toInt : Tree → Except Error Int
  | .scalar (.bool b) => .ok (if b then 1 else 0)
  | .scalar (.int n) => .ok n
  | .scalar (.float x) => match x with
    | .nan => .error .badNumeral
    | .infinite _ => .error .overflow
    | x => .ok (x.truncate?.getD 0)
  | .scalar (.text s) => Numeral.int 10 s.toList
  | .scalar (.bytes b) =>
    if b.any (0x80 ≤ ·) then .error .badNumeral
    else Numeral.int 10 (b.map fun x => Char.ofNat x.toNat)
  | _ => .error .notNumber

namespace Options

/-- The options that a mapping of settings gives. Nothing, and whatever is empty, sets none. -/
def ofTree (settings : Tree) : Except Error Options :=
  if !settings.holds then .ok {}
  else match settings with
    | .map es => do
      let flag (name : String) (default : Bool) :=
        ((Entries.get? es name).map Tree.holds).getD default
      let gateway := match Entries.get? es "apiGateway" with
        | some v => v.holds
        | none => flag "api_gateway" false
      let seed ← match Entries.get? es "seed" with
        | none | some .null => pure none
        | some v => some <$> v.toInt
      return { examples := flag "examples" true
               validators := flag "validators" true
               apiGateway := gateway
               seed := seed }
    | _ => .error .notMapping

end Options
end ApiManifest
