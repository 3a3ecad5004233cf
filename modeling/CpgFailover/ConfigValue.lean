import CpgFailover.Lib.Bytes
import CpgFailover.VirtualIp

/-!
# Values in the configuration

How the texts of the configuration document are read: whole numbers with `atoi` and addresses with
`inet_pton`.

## Main definitions

* `atoi`: a number, as far as the text has one
* `utilsIpIsValid`: whether the text is four numbers with dots between them
* `utilsGetNetmask`: a netmask, 32 by default

## Main results

* `length_le_of_utilsIpIsValid`: a valid address has no more than 15 characters
-/

namespace CpgFailover

/-- `isdigit`. -/
def isDigit (c : UInt8) : Bool := 48 ≤ c && c ≤ 57

/-- `isspace`. -/
def isSpace (c : UInt8) : Bool := c == 32 || (9 ≤ c && c ≤ 13)

/-- The number that the digits at the start of the text stand for. -/
def digitsValue (s : CString) : ℕ :=
  (s.takeWhile isDigit).foldl (fun n c => 10 * n + (c.toNat - 48)) 0

/-- `INT_MAX`. -/
def intMax : ℤ := 2 ^ 31 - 1

/-- `LONG_MAX`. -/
def longMax : ℤ := 2 ^ 63 - 1

/-- `strtol(s, NULL, 10)`: blanks, a sign and digits, held within the range of `long`. -/
def strtol (s : CString) : ℤ :=
  match s.dropWhile isSpace with
  | 45 :: t => max (-longMax - 1) (-Int.ofNat (digitsValue t))
  | 43 :: t => min longMax (Int.ofNat (digitsValue t))
  | t => min longMax (Int.ofNat (digitsValue t))

/-- `atoi`: `strtol`, converted to `int`. -/
def atoi (s : CString) : ℤ := Bytes.toInt (strtol s)

/-- `utils_get_netmask`. -/
def utilsGetNetmask (netmask : CString) : ℤ :=
  let nm := atoi netmask
  if nm ≤ 0 ∨ 32 < nm then 32 else nm

/-! ## Addresses -/

/-- The loop of `inet_pton(AF_INET, ...)`: the numbers begun so far, the last of them, and whether
it has got a digit. -/
def inetPtonLoop : CString → ℕ → ℕ → Bool → Bool
  | [], octets, _, _ => 4 ≤ octets
  | ch :: src, octets, octet, sawDigit =>
    if isDigit ch then
      let new := octet * 10 + (ch.toNat - 48)
      -- no number has a zero in front
      if sawDigit ∧ octet = 0 then false
      else if 255 < new then false
      else if sawDigit then inetPtonLoop src octets new true
      else if 4 < octets + 1 then false
      else inetPtonLoop src (octets + 1) new true
    else if ch = 46 ∧ sawDigit then
      if octets = 4 then false else inetPtonLoop src octets 0 false
    else false

/-- `utils_ip_is_valid`. -/
def utilsIpIsValid (address : CString) : Bool := inetPtonLoop address 0 0 false

/-- How many characters may follow: the digits that the number still has room for, and the numbers
and dots after it. -/
def addressRoom (octets octet : ℕ) (sawDigit : Bool) : ℕ :=
  if sawDigit then
    (if octet = 0 then 0 else if octet < 10 then 2 else if octet < 100 then 1 else 0) +
      4 * (4 - octets)
  else 4 * (4 - octets) - 1

theorem length_le_addressRoom {src : CString} {octets octet : ℕ} {sawDigit : Bool}
    (hoctets : octets ≤ 4) (h : inetPtonLoop src octets octet sawDigit = true) :
    src.length ≤ addressRoom octets octet sawDigit := by
  induction src generalizing octets octet sawDigit with
  | nil => exact Nat.zero_le _
  | cons ch src ih =>
    rw [inetPtonLoop] at h
    rw [List.length_cons]
    by_cases hd : isDigit ch = true
    · rw [if_pos hd] at h
      simp only at h
      split at h
      · cases h
      split at h
      · cases h
      rename_i hzero hnew
      split at h
      · -- one more digit of the same number
        rename_i hsaw
        have hrec := ih hoctets h
        have hne : octet ≠ 0 := fun h0 => hzero ⟨hsaw, h0⟩
        have hnew10 : ¬ octet * 10 + (ch.toNat - 48) < 10 := by omega
        have hnew0 : ¬ octet * 10 + (ch.toNat - 48) = 0 := by omega
        simp only [addressRoom, hsaw, if_true, if_neg hnew0, if_neg hnew10, if_neg hne] at hrec ⊢
        by_cases h10 : octet < 10
        · rw [if_pos h10]
          split at hrec <;> omega
        · have hnew100 : ¬ octet * 10 + (ch.toNat - 48) < 100 := by omega
          rw [if_neg hnew100] at hrec
          rw [if_neg h10, if_pos (by omega)]
          omega
      · split at h
        · cases h
        · -- the first digit of a number
          rename_i hsaw hoct
          have hrec := ih (by omega) h
          simp only [addressRoom, if_true] at hrec
          rw [addressRoom, if_neg hsaw]
          split at hrec
          · omega
          · split at hrec
            · omega
            · split at hrec <;> omega
    · rw [if_neg hd] at h
      split at h
      · rename_i hdot
        split at h
        · cases h
        · rename_i hoct
          have hrec := ih hoctets h
          simp only [addressRoom, hdot.2, if_true] at hrec ⊢
          simp only [Bool.false_eq_true, if_false] at hrec
          omega
      · cases h

/-- **A valid address has no more than 15 characters.** -/
theorem length_le_of_utilsIpIsValid {address : CString} (h : utilsIpIsValid address = true) :
    address.length ≤ 15 :=
  length_le_addressRoom (Nat.zero_le 4) h

end CpgFailover
