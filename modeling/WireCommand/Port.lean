import WireCommand.Basic
import WireCommand.Foundation.Numeral

/-!
# Ports

The port on the command line of the TCP server and of the client. Both read it with `strtoul` and
check the value it returns, which for a negative number is the number modulo `2 ^ 64`; so the check
sees a small number where the text has a large negative one (`parsePort_ok_iff`).
-/

namespace WireCommand.Port

open Foundation.Numeral

/-- The body of the two parsers; `text` is the string without its terminator. -/
def parsePort (text : Bytes) : Except Errno UInt16 :=
  let converted := strtoul 64 text
  if converted.erange ∨ text = [] ∨ converted.rest ≠ [] ∨ converted.value = 0 ∨
      converted.value > uint16Max then
    .error .einval
  else
    .ok (.ofNat converted.value)

/-- `wc_tcp_parse_port`. -/
def tcpParsePort (text : Bytes) : Except Errno UInt16 := parsePort text

/-- `wc_client_parse_port`. -/
def clientParsePort (text : Bytes) : Except Errno UInt16 := parsePort text

theorem parsePort_of_not_denotes {text : Bytes} (h : ∀ z, ¬ Denotes text z) :
    parsePort text = .error .einval := by
  unfold parsePort
  by_cases hempty : text = []
  · exact if_pos (.inr (.inl hempty))
  · refine if_pos (.inr (.inr (.inl fun hrest => ?_)))
    obtain ⟨z, hz⟩ := denotes_of_strtoul hempty hrest
    exact h z hz

/-- The check on an integer, for the value it is converted to. -/
theorem parsePort_of_denotes {text : Bytes} {z : Int} (h : Denotes text z) :
    parsePort text =
      if z.natAbs < 2 ^ 64 ∧ 1 ≤ z % 2 ^ 64 ∧ z % 2 ^ 64 ≤ 65535 then
        .ok (.ofNat (z % 2 ^ 64).toNat)
      else
        .error .einval := by
  have hne : text ≠ [] := by
    rintro rfl
    obtain ⟨hdigits, -⟩ := denotes_iff_scan.mp h
    exact hdigits rfl
  unfold parsePort
  rw [strtoul_of_denotes h]
  by_cases hbig : z.natAbs > 2 ^ 64 - 1
  · have hlarge : ¬ z.natAbs < 2 ^ 64 := by omega
    simp only [hbig, if_true, true_or, hlarge, false_and, if_false]
  · have hsmall : z.natAbs < 2 ^ 64 := by omega
    simp only [hbig, if_false, hne, hsmall, true_and, ne_eq, not_true_eq_false, false_or, uint16Max,
      Bool.false_eq_true]
    by_cases hport : 1 ≤ z % 2 ^ 64 ∧ z % 2 ^ 64 ≤ 65535
    · rw [if_pos hport, if_neg (by omega)]
    · rw [if_neg hport, if_pos (by omega)]

/-- **Which texts are ports.** -/
theorem parsePort_ok_iff {text : Bytes} {p : UInt16} :
    parsePort text = .ok p ↔
      ∃ z, Denotes text z ∧ z.natAbs < 2 ^ 64 ∧ z % 2 ^ 64 = p.toNat ∧ 0 < p.toNat := by
  have hp := p.toNat_lt
  constructor
  · intro hok
    by_cases hdenotes : ∃ z, Denotes text z
    · obtain ⟨z, hz⟩ := hdenotes
      rw [parsePort_of_denotes hz] at hok
      split at hok
      · next hport =>
          cases hok
          have hvalue : (UInt16.ofNat (z % 2 ^ 64).toNat).toNat = (z % 2 ^ 64).toNat := by
            apply UInt16.toNat_ofNat_of_lt'
            show _ < 65536
            omega
          exact ⟨z, hz, hport.1, by omega, by omega⟩
      · cases hok
    · rw [parsePort_of_not_denotes fun z hz => hdenotes ⟨z, hz⟩] at hok
      cases hok
  · rintro ⟨z, hz, hsmall, hvalue, hpos⟩
    rw [parsePort_of_denotes hz, if_pos ⟨hsmall, by omega, by omega⟩, hvalue]
    simp

/-! ## What a port is taken for -/

/-- No number is taken for another: a text that is accepted denotes the port, and a text that
denotes no port is rejected. -/
def Exact (parse : Bytes → Except Errno UInt16) (text : Bytes) : Prop :=
  (∀ p, parse text = .ok p → Denotes text p.toNat ∧ 1 ≤ p.toNat ∧ p.toNat ≤ 65535) ∧
    ((∀ z, Denotes text z → ¬ (1 ≤ z ∧ z ≤ 65535)) → ∃ e, parse text = .error e)

/-- A text wraps around when it denotes one of the 65535 smallest numbers that `strtoul` converts. -/
def WrapsAround (text : Bytes) : Prop :=
  ∃ m : Nat, Denotes text (-m) ∧ 2 ^ 64 - 65535 ≤ m ∧ m ≤ 2 ^ 64 - 1

theorem parsePort_exact_iff (text : Bytes) : Exact parsePort text ↔ ¬ WrapsAround text := by
  constructor
  · rintro ⟨haccepted, -⟩ ⟨m, hm, hlow, hhigh⟩
    -- the port that `-m` is taken for
    have hwrapped : -(m : Int) % 2 ^ 64 = 2 ^ 64 - m := by omega
    have hok : parsePort text = .ok (.ofNat (2 ^ 64 - m)) := by
      rw [parsePort_of_denotes hm, if_pos (by omega), hwrapped]
      congr 2
      omega
    obtain ⟨hport, -⟩ := haccepted _ hok
    have hsame := hport.unique hm
    omega
  · intro hwraps
    have haccepted : ∀ p, parsePort text = .ok p →
        Denotes text p.toNat ∧ 1 ≤ p.toNat ∧ p.toNat ≤ 65535 := by
      intro p hok
      have hp := p.toNat_lt
      obtain ⟨z, hz, hsmall, hvalue, hpos⟩ := parsePort_ok_iff.mp hok
      by_cases hneg : 0 ≤ z
      · have hsame : z = p.toNat := by omega
        exact ⟨hsame ▸ hz, hpos, by omega⟩
      · refine absurd ⟨z.natAbs, ?_, by omega, by omega⟩ hwraps
        have habs : -(z.natAbs : Int) = z := by omega
        rwa [habs]
    refine ⟨haccepted, ?_⟩
    intro hnone
    cases hparse : parsePort text with
    | error e => exact ⟨e, rfl⟩
    | ok p =>
        obtain ⟨hport, hlow, hhigh⟩ := haccepted p hparse
        exact absurd ⟨by omega, by omega⟩ (hnone _ hport)

/-- **Port parsing is exact but for numbers that wrap around.** For every text and either parser, no
number is taken for another if and only if the text does not denote one of the 65535 numbers from
`-(2 ^ 64 - 1)` up. -/
theorem port_parsing_exact (text : Bytes) :
    (Exact tcpParsePort text ↔ ¬ WrapsAround text) ∧
      (Exact clientParsePort text ↔ ¬ WrapsAround text) :=
  ⟨parsePort_exact_iff text, parsePort_exact_iff text⟩

/-- An ordinary port. -/
theorem port_parsing_exact_8080 :
    Exact tcpParsePort ("8080".toList.map Char.toUInt8) ∧
      tcpParsePort ("8080".toList.map Char.toUInt8) = .ok 8080 := by
  refine ⟨(port_parsing_exact _).1.mpr ?_, by decide⟩
  rintro ⟨m, hm, -, -⟩
  have hdenotes : Denotes ("8080".toList.map Char.toUInt8) 8080 := denotes_iff_scan.mpr (by decide)
  have hsame := hdenotes.unique hm
  omega

/-- `"-18446744073709551615"`. -/
def negativeText : Bytes := "-18446744073709551615".toList.map Char.toUInt8

/-- A negative number is taken for port 1. -/
theorem negative_port_accepted :
    tcpParsePort negativeText = .ok 1 ∧ clientParsePort negativeText = .ok 1 ∧
      Denotes negativeText (-18446744073709551615) := by
  refine ⟨by decide, by decide, ?_⟩
  exact denotes_iff_scan.mpr (by decide)

end WireCommand.Port
