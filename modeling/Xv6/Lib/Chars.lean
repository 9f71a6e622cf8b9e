import Mathlib.Tactic.Common

/-! Strings of C: characters that are not NUL, up to a NUL in memory. -/
namespace Xv6.Lib

abbrev Chr := {c : UInt8 // c ≠ 0}

abbrev Text := List Chr

end Xv6.Lib
