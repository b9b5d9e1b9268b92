import XcRos.Foundation.Search
import XcRos.Rpc.CString

/-! # Scanning an HTTP header

Client and server look for the same landmarks in the bytes read so far. A pointer into the header is
the text from there on. Every landmark needs at least one byte behind it to be noticed.
-/

namespace XcRos.Rpc

open XcRos.Foundation

def tolower (c : UInt8) : UInt8 := if 65 ≤ c ∧ c ≤ 90 then c + 32 else c

/-- `ep - cp > n && strncasecmp(cp, pat, n) == 0` for a pattern of length `n`. -/
def matchesNoCase (pat cp : Bytes) : Bool :=
  pat.length < cp.length && (pat.map tolower).isPrefixOf (cp.map tolower)

/-- `ep - cp > n && strncmp(cp, pat, n) == 0` for a pattern of length `n`. -/
def matchesExact (pat cp : Bytes) : Bool := pat.length < cp.length && pat.isPrefixOf cp

structure HeaderScan where
  /-- start of the content-length value -/
  lp : Option Bytes
  /-- start of the connection value -/
  kp : Option Bytes
  /-- start of the body -/
  bp : Option Bytes
deriving DecidableEq, Repr

/-- The scanning loop from `cp` on; only the server takes note of the connection field. -/
def scanHeader (wantsConnection : Bool) (found : HeaderScan) : Bytes → HeaderScan
  | [] => found
  | c :: rest =>
    let cp := c :: rest
    if matchesNoCase (bytes "Content-length: ") cp then
      scanHeader wantsConnection { found with lp := some (cp.drop 16) } rest
    else if wantsConnection && matchesNoCase (bytes "Connection: ") cp then
      scanHeader wantsConnection { found with kp := some (cp.drop 12) } rest
    else if matchesExact [13, 10, 13, 10] cp then { found with bp := some (cp.drop 4) }
    else if matchesExact [10, 10] cp then { found with bp := some (cp.drop 2) }
    else scanHeader wantsConnection found rest

end XcRos.Rpc
