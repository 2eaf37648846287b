import Intake.Proofs.Net.RoundTrip
import Intake.Proofs.Text.Blank
import Intake.Settings

/-!
# The address that is listened on

The value of the address variable is trimmed and read as an address. Since no address begins or ends
with a blank, the values that are taken are the texts of addresses with blanks around them, and the
other ones are reported as they are, before the codecs are looked at (`read_address_iff`). What an
address is printed as is among the former (`read_padded_text`).
-/

set_option autoImplicit false
set_option relaxedAutoImplicit false

namespace Intake

namespace Net

theorem IsDigit.not_isBlank {radix d : Nat} {c : Char} (h : IsDigit radix c d) :
    Text.isBlank c = false := by
  have hsmall : ("0123456789abcdef".toList.all fun c ↦ !Text.isBlank c) = true := by decide
  have hcapital : ("0123456789ABCDEF".toList.all fun c ↦ !Text.isBlank c) = true := by decide
  obtain ⟨-, hc | hc⟩ := h
  · simpa using List.all_eq_true.mp hsmall c (List.mem_of_getElem? hc)
  · simpa using List.all_eq_true.mp hcapital c (List.mem_of_getElem? hc)

theorem IsNumber.not_isBlank {radix n : Nat} {text : List Char} (h : IsNumber radix text n) :
    ∀ c ∈ text, Text.isBlank c = false := by
  obtain ⟨-, ds, hdigits, -⟩ := h
  intro c hc
  obtain ⟨i, hi, rfl⟩ := List.mem_iff_getElem.mp hc
  exact (hdigits.get hi (hdigits.length_eq ▸ hi)).not_isBlank

/-- Whatever stands in front of a number, the last character is no blank. -/
theorem IsNumber.not_isBlank_getLast {radix n : Nat} {text : List Char}
    (h : IsNumber radix text n) (front : List Char) :
    ∀ c ∈ (front ++ text).getLast?, Text.isBlank c = false := by
  intro c hc
  rw [List.getLast?_append_of_ne_nil _ h.1] at hc
  exact h.not_isBlank c (List.mem_of_getLast? hc)

theorem IsAddress.hasFirmEnds {text : List Char} {address : Address} (h : IsAddress text address) :
    Text.HasFirmEnds text := by
  cases h with
  | @v4 dotted digits ip port hip hport =>
    constructor
    · obtain ⟨ha, -, -, -⟩ := hip
      intro c hc
      rw [List.append_assoc, List.head?_append_of_ne_nil _ ha.number.1] at hc
      exact ha.number.not_isBlank c (List.mem_of_mem_head? hc)
    · have hlast := hport.not_isBlank_getLast (dotted ++ [':'])
      rwa [List.append_assoc] at hlast
  | @v6 groups zone digits ip scope port hip hzone hport =>
    constructor
    · rintro c ⟨⟩
      decide
    · have hlast := hport.not_isBlank_getLast ('[' :: (groups ++ zone ++ [']', ':']))
      simpa using hlast

end Net

namespace Settings

variable {lookup : String → Option String} {value : String} {address : Net.Address}

/-- A value is the text of this address with any blanks around it. -/
def IsListenAddress (value : String) (address : Net.Address) : Prop :=
  ∃ text, Text.TrimsTo value.toList text ∧ Net.IsAddress text address

theorem ofText?_trim_eq_some_iff :
    Net.Address.ofText? (Text.trim value) = some address ↔ IsListenAddress value address := by
  rw [Net.ofText?_eq_some_iff, Text.trim, String.toList_ofList, IsListenAddress]
  simp only [← Text.trimmed_eq_iff, exists_eq_left']

theorem ofText?_trim_eq_none_iff :
    Net.Address.ofText? (Text.trim value) = none ↔ ¬ ∃ address, IsListenAddress value address := by
  simp only [Option.eq_none_iff_forall_ne_some, ne_eq, ofText?_trim_eq_some_iff, not_exists]

theorem IsListenAddress.unique {other : Net.Address} (h : IsListenAddress value address)
    (hother : IsListenAddress value other) : address = other := by
  rw [← ofText?_trim_eq_some_iff] at h hother
  exact Option.some_inj.mp (h.symm.trans hother)

theorem isListenAddress_padded {before after : List Char} (address : Net.Address)
    (hbefore : ∀ c ∈ before, Text.isBlank c = true) (hafter : ∀ c ∈ after, Text.isBlank c = true) :
    IsListenAddress (String.ofList before ++ address.text ++ String.ofList after) address := by
  have htext := Net.isAddress_text address
  refine ⟨_, ⟨before, after, ?_, hbefore, hafter, htext.hasFirmEnds⟩, htext⟩
  simp

theorem isListenAddress_default : IsListenAddress defaultAddress (.v4 ⟨0, 0, 0, 0⟩ 5000) :=
  ofText?_trim_eq_some_iff.mp (by decide +kernel)

/-! ### Settings -/

/-- Where an address is given, the settings are those of the codecs. -/
theorem read_of_isListenAddress
    (h : IsListenAddress ((lookup addressVariable).getD defaultAddress) address) :
    read lookup = (readCodecs ((lookup codecsVariable).getD defaultCodecs)).map
      fun registry ↦ ⟨address, registry⟩ := by
  unfold read
  dsimp only
  rw [ofText?_trim_eq_some_iff.mpr h]

theorem read_of_not_isListenAddress
    (h : ¬ ∃ address, IsListenAddress ((lookup addressVariable).getD defaultAddress) address) :
    read lookup = .error (.address ((lookup addressVariable).getD defaultAddress)) := by
  unfold read
  dsimp only
  rw [ofText?_trim_eq_none_iff.mpr h]

theorem readCodecs_ne_address (codecs shown : String) :
    readCodecs codecs ≠ .error (.address shown) := by
  rw [readCodecs]
  cases Registry.ofNames ((codecs.toList.splitOn ',').map String.ofList) with
  | ok registry => nofun
  | error unknown => nofun

theorem read_ne_address_iff :
    (∀ shown, read lookup ≠ .error (.address shown)) ↔
      ∃ address, IsListenAddress ((lookup addressVariable).getD defaultAddress) address := by
  constructor
  · intro h
    by_contra hnot
    exact h _ (read_of_not_isListenAddress hnot)
  · rintro ⟨address, haddress⟩ shown h
    rw [read_of_isListenAddress haddress] at h
    have hcodecs := readCodecs_ne_address ((lookup codecsVariable).getD defaultCodecs) shown
    cases hread : readCodecs ((lookup codecsVariable).getD defaultCodecs) with
    | ok registry => simp [hread, Except.map] at h
    | error fault =>
      obtain rfl : fault = .address shown := by simpa [hread, Except.map] using h
      exact hcodecs hread

theorem read_eq_ok_iff {settings : Settings} :
    read lookup = .ok settings ↔
      IsListenAddress ((lookup addressVariable).getD defaultAddress) settings.address ∧
        readCodecs ((lookup codecsVariable).getD defaultCodecs) = .ok settings.registry := by
  constructor
  · intro h
    have hne : ∀ shown, read lookup ≠ .error (.address shown) := by
      rw [h]
      exact fun shown ↦ nofun
    obtain ⟨address, haddress⟩ := read_ne_address_iff.mp hne
    rw [read_of_isListenAddress haddress] at h
    cases hread : readCodecs ((lookup codecsVariable).getD defaultCodecs) with
    | ok registry =>
      obtain rfl : ⟨address, registry⟩ = settings := by simpa [hread, Except.map] using h
      exact ⟨haddress, rfl⟩
    | error fault => simp [hread, Except.map] at h
  · rintro ⟨haddress, hcodecs⟩
    rw [read_of_isListenAddress haddress, hcodecs]
    rfl

/-- A value of the address variable is taken if it is an address with blanks around it. It is taken
as that address, and a value that is none is reported untrimmed, whatever the other variable is. -/
theorem read_address_iff (hvalue : lookup addressVariable = some value) :
    ((∀ shown, read lookup ≠ .error (.address shown)) ↔
        ∃ address, IsListenAddress value address) ∧
      (∀ address, IsListenAddress value address →
        read lookup = (readCodecs ((lookup codecsVariable).getD defaultCodecs)).map
          fun registry ↦ ⟨address, registry⟩) ∧
      (∀ settings, read lookup = .ok settings →
        ∀ address, IsListenAddress value address ↔ settings.address = address) ∧
      ((¬ ∃ address, IsListenAddress value address) →
        read lookup = .error (.address value)) := by
  have hgiven : (lookup addressVariable).getD defaultAddress = value := by rw [hvalue]; rfl
  refine ⟨?_, fun address h ↦ ?_, fun settings h address ↦ ?_, fun h ↦ ?_⟩
  · rw [read_ne_address_iff, hgiven]
  · exact read_of_isListenAddress (hgiven ▸ h)
  · have haddress := hgiven ▸ (read_eq_ok_iff.mp h).1
    exact ⟨haddress.unique, fun heq ↦ heq ▸ haddress⟩
  · rw [read_of_not_isListenAddress (hgiven ▸ h), hgiven]

/-- Both variables, as they are set. -/
def given (address codecs : String) (name : String) : Option String :=
  if name = addressVariable then some address
  else if name = codecsVariable then some codecs
  else none

theorem given_addressVariable (address codecs : String) :
    given address codecs addressVariable = some address :=
  if_pos rfl

theorem given_codecsVariable (address codecs : String) :
    given address codecs codecsVariable = some codecs :=
  (if_neg (by decide)).trans (if_pos rfl)

/-- An address in brackets with a scope, zeros in front of scope and port, and a dotted end. -/
def scopedValue : String := "\t[1::2.3.4.5%007]:00080 "

/-- An octet with a zero in front of it. -/
def zeroedValue : String := " 1.2.3.04:80"

/-- Beside codecs that cannot be read, the one value passes as an address and the other does not. -/
theorem read_address_iff_scoped :
    given scopedValue "br" addressVariable = some scopedValue ∧
      given zeroedValue "br" addressVariable = some zeroedValue ∧
        IsListenAddress scopedValue (.v6 ⟨[1, 0, 0, 0, 0, 0, 0x0203, 0x0405], rfl⟩ 7 80) ∧
          (¬ ∃ address, IsListenAddress zeroedValue address) ∧
            (∀ shown, read (given scopedValue "br") ≠ .error (.address shown)) ∧
              read (given scopedValue "br") = .error (.codecs ⟨"br"⟩) ∧
                read (given zeroedValue "br") = .error (.address zeroedValue) := by
  have hscoped : IsListenAddress scopedValue
      (.v6 ⟨[1, 0, 0, 0, 0, 0, 0x0203, 0x0405], rfl⟩ 7 80) :=
    ofText?_trim_eq_some_iff.mp (by decide +kernel)
  have hzeroed : ¬ ∃ address, IsListenAddress zeroedValue address :=
    ofText?_trim_eq_none_iff.mp (by decide +kernel)
  have hcodecs : readCodecs "br" = .error (.codecs ⟨"br"⟩) := by decide +kernel
  obtain ⟨htaken, hread, -, -⟩ := read_address_iff (given_addressVariable scopedValue "br")
  obtain ⟨-, -, -, hreported⟩ := read_address_iff (given_addressVariable zeroedValue "br")
  refine ⟨given_addressVariable _ _, given_addressVariable _ _, hscoped, hzeroed,
    htaken.mpr ⟨_, hscoped⟩, ?_, hreported hzeroed⟩
  rw [hread _ hscoped, given_codecsVariable, Option.getD_some, hcodecs]
  rfl

/-- An address that is printed, with any blanks around it, is read as the address that it was. So no
two addresses are printed alike, and settings stay what they are when the address that was read is
given as it is printed. -/
theorem read_padded_text :
    (∀ (lookup : String → Option String) (address : Net.Address) (registry : Registry)
        (before after : List Char), (∀ c ∈ before, Text.isBlank c = true) →
      (∀ c ∈ after, Text.isBlank c = true) →
      lookup addressVariable =
        some (String.ofList before ++ address.text ++ String.ofList after) →
      readCodecs ((lookup codecsVariable).getD defaultCodecs) = .ok registry →
        read lookup = .ok ⟨address, registry⟩) ∧
    Function.Injective Net.Address.text ∧
    ∀ (lookup : String → Option String) (settings : Settings), read lookup = .ok settings →
      read (Function.update lookup addressVariable (some settings.address.text)) =
        .ok settings := by
  refine ⟨fun lookup address registry before after hbefore hafter haddress hcodecs ↦ ?_,
    Net.text_injective, fun lookup settings h ↦ ?_⟩
  · have hlisten := isListenAddress_padded address hbefore hafter
    exact read_eq_ok_iff.mpr ⟨by rwa [haddress], hcodecs⟩
  · have hlisten : IsListenAddress (String.ofList [] ++ settings.address.text ++ String.ofList [])
        settings.address := isListenAddress_padded settings.address nofun nofun
    have hother : codecsVariable ≠ addressVariable := by decide
    rw [read_eq_ok_iff, Function.update_self, Function.update_of_ne hother]
    exact ⟨by simpa using hlisten, (read_eq_ok_iff.mp h).2⟩

/-- Settings with an address that is printed in dotted form. -/
def mappedSettings : Settings where
  address := .v6 ⟨[0, 0, 0, 0, 0, 0xffff, 0x0102, 0xff00], rfl⟩ 3 80
  registry := ⟨[.zstd]⟩

/-- Their address between two blanks. -/
def mappedValue : String := "\u3000[::ffff:1.2.255.0%3]:80\n"

theorem read_padded_text_mapped :
    mappedValue =
        String.ofList ['\u3000'] ++ mappedSettings.address.text ++ String.ofList ['\n'] ∧
      readCodecs "zstd" = .ok mappedSettings.registry ∧
        read (given mappedValue "zstd") = .ok mappedSettings ∧
          read (Function.update (given mappedValue "zstd") addressVariable
            (some mappedSettings.address.text)) = .ok mappedSettings := by
  have hvalue : mappedValue =
      String.ofList ['\u3000'] ++ mappedSettings.address.text ++ String.ofList ['\n'] := by
    decide +kernel
  have hcodecs : readCodecs "zstd" = .ok mappedSettings.registry := by decide +kernel
  obtain ⟨hpadded, -, hagain⟩ := read_padded_text
  have hread : read (given mappedValue "zstd") = .ok mappedSettings :=
    hpadded (given mappedValue "zstd") mappedSettings.address mappedSettings.registry ['\u3000']
      ['\n'] (List.forall_mem_singleton.mpr (by decide)) (List.forall_mem_singleton.mpr (by decide))
      ((given_addressVariable _ _).trans (congrArg some hvalue)) (by rwa [given_codecsVariable])
  exact ⟨hvalue, hcodecs, hread, hagain (given mappedValue "zstd") mappedSettings hread⟩

end Settings
end Intake
