import LivePreview.Command
import LivePreview.Proofs.Binary.Codec

/-!
# Commands in bytes

The bytes of a command tell where they end: whatever stands behind them, the decoder finds the
command and leaves the rest alone. So commands can be written one behind the other, and no command
is the beginning of another one.
-/
namespace LivePreview.Command

open Binary

/-- The texts of a command in the order in which they are written. -/
def texts : Command → List String
  | createFile path content => [path, content]
  | updateFile path content => [path, content]
  | createDirectory path => [path]
  | deleteFile path => [path]
  | deleteDirectory path => [path]
  | rename source target => [source, target]
  | replaceInFile path old new => [path, old, new]
  | insertInFile path _ text => [path, text]

/-- The length of each text can be stated with eight bytes, as that of every text in memory can. -/
def Measurable (command : Command) : Prop :=
  ∀ text ∈ command.texts, text.utf8ByteSize < UInt64.size

instance (command : Command) : Decidable command.Measurable := by unfold Measurable; infer_instance

variable {first second : String}

theorem decodeSingle_append (make : String → Command) (h : first.utf8ByteSize < UInt64.size)
    (rest : Bytes) :
    decodeSingle make (encodeString first ++ rest) = some (make first, rest) := by
  rw [decodeSingle, decodeString_append h]
  rfl

theorem decodePair_append (make : String → String → Command)
    (h : first.utf8ByteSize < UInt64.size) (h' : second.utf8ByteSize < UInt64.size)
    (rest : Bytes) :
    decodePair make (encodeString first ++ (encodeString second ++ rest)) =
      some (make first second, rest) := by
  rw [decodePair, decodeString_append h]
  simp only [Option.bind_eq_bind, Option.bind_some, decodeString_append h']

/-- A command is read back, with any bytes behind it. -/
theorem decode_append {command : Command} (h : command.Measurable) (rest : Bytes) :
    decode (command.encode ++ rest) = some (command, rest) := by
  rw [decode]
  cases command with
  | createFile path content =>
    have hpath := h path (by simp [texts])
    have hcontent := h content (by simp [texts])
    simp only [encode, List.append_assoc, decodeTag_append (show 0 < 251 by decide)]
    exact decodePair_append createFile hpath hcontent rest
  | updateFile path content =>
    have hpath := h path (by simp [texts])
    have hcontent := h content (by simp [texts])
    simp only [encode, List.append_assoc, decodeTag_append (show 1 < 251 by decide)]
    exact decodePair_append updateFile hpath hcontent rest
  | createDirectory path =>
    have hpath := h path (by simp [texts])
    simp only [encode, List.append_assoc, decodeTag_append (show 2 < 251 by decide)]
    exact decodeSingle_append createDirectory hpath rest
  | deleteFile path =>
    have hpath := h path (by simp [texts])
    simp only [encode, List.append_assoc, decodeTag_append (show 3 < 251 by decide)]
    exact decodeSingle_append deleteFile hpath rest
  | deleteDirectory path =>
    have hpath := h path (by simp [texts])
    simp only [encode, List.append_assoc, decodeTag_append (show 4 < 251 by decide)]
    exact decodeSingle_append deleteDirectory hpath rest
  | rename source target =>
    have hsource := h source (by simp [texts])
    have htarget := h target (by simp [texts])
    simp only [encode, List.append_assoc, decodeTag_append (show 5 < 251 by decide)]
    exact decodePair_append rename hsource htarget rest
  | replaceInFile path old new =>
    have hpath := h path (by simp [texts])
    have hold := h old (by simp [texts])
    have hnew := h new (by simp [texts])
    simp only [encode, List.append_assoc, decodeTag_append (show 6 < 251 by decide)]
    simp only [Option.bind_eq_bind, Option.bind_some, decodeString_append hpath]
    exact decodePair_append (replaceInFile path) hold hnew rest
  | insertInFile path line text =>
    have hpath := h path (by simp [texts])
    have htext := h text (by simp [texts])
    simp only [encode, List.append_assoc, decodeTag_append (show 7 < 251 by decide)]
    simp only [Option.bind_eq_bind, Option.bind_some, decodeString_append hpath,
      decodeNat_append line.toNat_lt, UInt64.ofNat_toNat]
    exact decodeSingle_append (insertInFile path line) htext rest

/-- Two commands whose bytes begin alike, one as far as its own bytes go, are one command. -/
theorem eq_of_begins {command other : Command} (h : command.Measurable) (ho : other.Measurable)
    (hp : command.encode <+: other.encode) : command = other := by
  obtain ⟨rest, hrest⟩ := hp
  have hread := decode_append h rest
  rw [hrest, ← List.append_nil other.encode, decode_append ho []] at hread
  exact (congrArg Prod.fst (Option.some.inj hread)).symm

/-- Whatever stands behind the bytes of a command, they are read back into the command and nothing
else is read; and of two commands neither is written as the beginning of the other. -/
theorem encode_self_delimiting {command : Command} (h : command.Measurable) :
    (∀ rest, decode (command.encode ++ rest) = some (command, rest)) ∧
      ∀ other : Command, other.Measurable → other ≠ command →
        ¬ command.encode <+: other.encode ∧ ¬ other.encode <+: command.encode := by
  refine ⟨decode_append h, fun other ho hne => ⟨fun hp => ?_, fun hp => ?_⟩⟩
  · exact hne (eq_of_begins h ho hp).symm
  · exact hne (eq_of_begins ho h hp)

/-- The line takes the widest form of a number, and the path begins that of the other command. -/
theorem encode_self_delimiting_of_widest_line :
    let command : Command := .insertInFile "/é" 18446744073709551615 "x"
    let other : Command := .insertInFile "/é" 253 "x"
    command.Measurable ∧ other.Measurable ∧
      decode (command.encode ++ [7, 2]) = some (command, [7, 2]) ∧
      ¬ other.encode <+: command.encode := by
  intro command other
  have hcommand : command.Measurable := by decide +kernel
  have hother : other.Measurable := by decide +kernel
  obtain ⟨hread, hdistinct⟩ := encode_self_delimiting hcommand
  exact ⟨hcommand, hother, hread [7, 2], (hdistinct other hother (by decide)).2⟩

end LivePreview.Command
