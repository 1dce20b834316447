import Criteria.Text.Basic
import Criteria.Value.Basic

/-!
# Configuration

What the service can be told: where it listens, what it reports, how rules are
compiled, and which records they are applied to. Everything has a default.
-/

namespace Criteria

/-! ## Ports -/

/-- The numbers of network ports, those of 16 bits. -/
abbrev Port := Fin 65536

namespace Port

instance neZero : @NeZero Nat Zero.ofOfNat0 65536 :=
  ⟨by decide⟩

def ofNat? (n : Nat) : Option Port :=
  if h : n < 65536 then some ⟨n, h⟩ else none

/-- The port that a text of digits denotes, perhaps behind a plus sign. -/
def ofText? (s : String) : Option Port :=
  let digits := match s.toList with
    | '+' :: cs => cs
    | cs => cs
  if !digits.isEmpty && digits.all Text.isAsciiDigit then ofNat? (Text.digitsValue digits)
  else none

end Port

/-! ## The parts of a configuration -/

namespace Config

structure Server where
  host : String := "0.0.0.0"
  port : Port := 8080
  deriving DecidableEq, Repr

structure Observability where
  logLevel : String := "info"
  logFormat : String := "pretty"
  metricsEnabled : Bool := true
  metricsPort : Port := 9090
  deriving DecidableEq, Repr

structure Compiler where
  typedLiterals : Bool := false
  escapeStrings : Bool := true
  deriving DecidableEq, Repr

/-- The record for requests without a key, the records under keys, and whether the
former serves keys without a record. -/
structure Context where
  standard : Option Record := none
  subjects : List (String × Record) := []
  fallback : Bool := true
  deriving DecidableEq, Repr

/-- Whether log lines are JSON. -/
def Observability.jsonLogs (o : Observability) : Bool :=
  Text.toAsciiLower o.logFormat == "json"

/-- Host and port as they are written in an address. -/
def Server.address (s : Server) : String :=
  s.host ++ ":" ++ String.ofList (Nat.toDigits 10 s.port.val)

end Config

structure Config where
  serviceName : String := ""
  environment : String := ""
  server : Config.Server := {}
  observability : Config.Observability := {}
  compiler : Config.Compiler := {}
  context : Config.Context := {}
  deriving DecidableEq, Repr

def Config.isProduction (c : Config) : Bool :=
  c.environment == "production"

end Criteria
