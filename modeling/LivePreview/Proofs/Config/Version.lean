import LivePreview.Package
import LivePreview.Proofs.Config
import LivePreview.Proofs.Decimal.Numeral
import LivePreview.Proofs.Yaml.Document

/-!
# Versions of packages

A version that is written as a number is stored as that number is printed. It is read as the same
number; its text is the one that was written only where the numeral is the one that is printed.
-/
namespace LivePreview

open Decimal

/-! ### Numerals as scalars -/

namespace Yaml.Scalar

variable {numeral : Numeral}

theorem digit?_of_isDigit {c : Char} (h : c.isDigit = true) :
    digit? 10 c = some (c.toNat - '0'.toNat) := by
  have := toNat_of_isDigit h
  unfold digit?
  rw [if_pos h, if_pos (by omega)]

theorem foldlM_digit? {ds : List Char} (h : ∀ c ∈ ds, c.isDigit = true) (init : Nat) :
    ds.foldlM (fun value c => (digit? 10 c).map (10 * value + ·)) init =
      some (ds.foldl (fun value c => 10 * value + (c.toNat - '0'.toNat)) init) := by
  induction ds generalizing init with
  | nil => rfl
  | cons c ds ih =>
    rw [List.foldlM_cons, digit?_of_isDigit (h c List.mem_cons_self)]
    exact ih (fun d hd => h d (List.mem_cons_of_mem _ hd)) _

theorem integer?_of_integer (h : numeral.fraction = [])
    (hmax : natOfDigits numeral.whole ≤ Int64.maxValue.toInt) :
    integer? 10 numeral.chars = some (natOfDigits numeral.whole : Int) := by
  have hmin : Int64.minValue.toInt ≤ natOfDigits numeral.whole :=
    le_trans (by decide : Int64.minValue.toInt ≤ 0) (Int.natCast_nonneg _)
  unfold integer?
  rw [numeral.takeSign_chars]
  dsimp only
  rw [Numeral.chars_of_integer h, if_neg (by simp [numeral.whole_ne_nil]),
    foldlM_digit? numeral.isDigit_whole]
  exact if_pos ⟨hmin, hmax⟩

theorem integer?_of_fraction (h : numeral.fraction ≠ []) : integer? 10 numeral.chars = none := by
  unfold integer?
  rw [numeral.takeSign_chars]
  dsimp only
  rw [Numeral.chars_of_fraction h, if_neg (by simp), List.foldlM_append,
    foldlM_digit? numeral.isDigit_whole]
  rfl

theorem marked?_chars (numeral : Numeral) : marked? numeral.chars = none := by
  have hmem {c : Char} (hc : c ∈ numeral.chars) := Numeral.mem_chars hc
  unfold marked?
  split
  · rename_i heq
    have := hmem (show 'x' ∈ numeral.chars by simp [heq])
    simp at this
  · rename_i heq
    have := hmem (show 'o' ∈ numeral.chars by simp [heq])
    simp at this
  · rename_i heq
    have := hmem (show '+' ∈ numeral.chars by simp [heq])
    simp at this
  · rfl

theorem real?_text (numeral : Numeral) :
    real? numeral.text = some (.ofDecimal false numeral.digits numeral.power) := by
  obtain ⟨c, rest, hc⟩ := List.exists_cons_of_ne_nil numeral.whole_ne_nil
  have hany : numeral.chars.any Char.isDigit = true := by
    rw [List.any_eq_true]
    exact ⟨c, by simp [Numeral.chars, hc], numeral.isDigit_whole c (by simp [hc])⟩
  unfold real?
  rw [if_neg, if_neg, if_neg, Numeral.text, String.toList_ofList, if_pos hany, numeral.parse_chars]
  · simp [numeral.text_ne ".nan" rfl, numeral.text_ne ".NaN" rfl, numeral.text_ne ".NAN" rfl]
  · simp [numeral.text_ne "-.inf" rfl, numeral.text_ne "-.Inf" rfl, numeral.text_ne "-.INF" rfl]
  · simp [numeral.text_ne ".inf" rfl, numeral.text_ne ".Inf" rfl, numeral.text_ne ".INF" rfl,
      numeral.text_ne "+.inf" rfl, numeral.text_ne "+.Inf" rfl, numeral.text_ne "+.INF" rfl]

/-- A numeral without a point is an integer, one with a point a floating-point number. -/
theorem ofPlain_text (hmax : natOfDigits numeral.whole ≤ Int64.maxValue.toInt) :
    ofPlain numeral.text =
      if numeral.fraction = [] then .integer (natOfDigits numeral.whole)
      else .real (.ofDecimal false numeral.digits numeral.power) := by
  have hchars : numeral.text.toList = numeral.chars := String.toList_ofList
  unfold ofPlain
  rw [hchars, marked?_chars]
  dsimp only
  rw [if_neg (by
      simp [numeral.text_ne "~" rfl, numeral.text_ne "null" rfl, numeral.text_ne "NULL" rfl]),
    if_neg (numeral.text_ne "true" rfl), if_neg (numeral.text_ne "false" rfl)]
  by_cases h : numeral.fraction = []
  · rw [if_pos h, integer?_of_integer h hmax]
  · rw [if_neg h, integer?_of_fraction h, real?_text]

end Yaml.Scalar

/-! ### The text of a version -/

namespace Decimal.Numeral

variable {numeral : Numeral}

theorem parse_text_ofNat (h : numeral.fraction = []) :
    Decimal.parse (Numeral.ofNat (natOfDigits numeral.whole)).text.toList =
      Decimal.parse numeral.text.toList := by
  rw [text, text, String.toList_ofList, String.toList_ofList, parse_chars, parse_chars,
    digits_ofNat, digits, power, power, h, List.append_nil]
  rfl

theorem text_ofNat_eq_iff (h : numeral.fraction = []) :
    (Numeral.ofNat (natOfDigits numeral.whole)).text = numeral.text ↔ numeral.Printed := by
  rw [text, text, String.ofList_inj, chars_of_integer h, chars_of_integer rfl]
  show Nat.toDigits 10 (natOfDigits numeral.whole) = numeral.whole ↔ numeral.Printed
  rw [toDigits_natOfDigits_iff numeral.isDigit_whole numeral.whole_ne_nil]
  constructor
  · intro hlead
    exact ⟨⟨hlead, by simp [h]⟩, fun hne => absurd h hne⟩
  · intro hprinted
    exact hprinted.lead

theorem parse_text_ofDecimal (hb : Binary64.magnitude numeral.digits numeral.power < 2 ^ 64) :
    Decimal.parse (Binary64.ofDecimal false numeral.digits numeral.power).text.toList =
      Decimal.parse numeral.text.toList := by
  obtain ⟨mantissa, exponent, h⟩ := Binary64.exists_ofDecimal_eq false hb
  obtain ⟨hm, hmax, -⟩ := Binary64.normalized_of_ofDecimal_eq h
  rw [h, parse_text hm hmax, ← h, text, String.toList_ofList, parse_chars]

theorem text_ofDecimal_eq_iff_printed (h : numeral.fraction ≠ [])
    (hb : Binary64.magnitude numeral.digits numeral.power < 2 ^ 64) :
    (Binary64.ofDecimal false numeral.digits numeral.power).text = numeral.text ↔
      numeral.Printed := by
  rw [text_ofDecimal_eq_iff h hb]
  constructor
  · intro hkept
    exact ⟨hkept.1, fun _ => hkept.2⟩
  · intro hprinted
    exact ⟨hprinted.toReduced, hprinted.isShortest h⟩

end Decimal.Numeral

theorem Yaml.Node.exists_versionText?_eq {numeral : Numeral}
    (hmax : natOfDigits numeral.whole ≤ Int64.maxValue.toInt) :
    ∃ version, (Yaml.Node.scalar (.ofPlain numeral.text)).versionText? = some version ∧
      Decimal.parse version.toList = Decimal.parse numeral.text.toList ∧
      (version = numeral.text ↔ numeral.Printed) := by
  rw [Yaml.Scalar.ofPlain_text hmax]
  by_cases hf : numeral.fraction = []
  · rw [if_pos hf]
    refine ⟨(Numeral.ofNat (natOfDigits numeral.whole)).text, ?_, Numeral.parse_text_ofNat hf,
      Numeral.text_ofNat_eq_iff hf⟩
    rw [Numeral.text, Numeral.chars_of_integer rfl]
    rfl
  · rw [if_neg hf]
    have hint : Int64.maxValue.toInt < 2 ^ 64 := by decide
    have hb := Numeral.magnitude_lt_two_pow (show natOfDigits numeral.whole < 2 ^ 64 by omega)
    exact ⟨_, rfl, Numeral.parse_text_ofDecimal hb, Numeral.text_ofDecimal_eq_iff_printed hf hb⟩

/-! ### Setting versions -/

namespace Config

variable {config config' : Config} {name version : String} {value : Yaml.Node}
  {entries fields : List (Yaml.Node × Yaml.Node)} {versions : List (String × String)}

theorem get?_addVersion_of_ne {entry : Yaml.Node × Yaml.Node} (h : entry.1.text? ≠ some name) :
    Table.get? name (addVersion versions entry) = Table.get? name versions := by
  unfold addVersion
  split
  · rename_i hkey _
    exact Table.get?_insert_of_ne (fun heq => h (by rw [hkey, heq])) _ _
  · rfl

theorem get?_addVersion (hv : value.versionText? = some version) :
    Table.get? name (addVersion versions (.scalar (.text name), value)) = some version := by
  unfold addVersion
  rw [hv]
  exact Table.get?_insert_self name version versions

theorem get?_addVersions_of_forall_ne (h : ∀ entry ∈ entries, entry.1.text? ≠ some name) :
    Table.get? name (addVersions versions entries) = Table.get? name versions := by
  unfold addVersions
  induction entries generalizing versions with
  | nil => rfl
  | cons entry rest ih =>
    obtain ⟨hne, hrest⟩ := List.forall_mem_cons.mp h
    rw [List.foldl_cons, ih hrest, get?_addVersion_of_ne hne]

/-- A version is stored at its name, whatever else is set beside it. -/
theorem get?_addVersions (hd : Yaml.Node.DistinctKeys entries)
    (hm : (.scalar (.text name), value) ∈ entries) (hv : value.versionText? = some version) :
    Table.get? name (addVersions versions entries) = some version := by
  induction entries generalizing versions with
  | nil => cases hm
  | cons entry rest ih =>
    obtain ⟨hrest, hother⟩ := hd.of_cons
    show Table.get? name (addVersions (addVersion versions entry) rest) = some version
    rcases List.mem_cons.mp hm with rfl | hm
    · rw [get?_addVersions_of_forall_ne (hother name rfl), get?_addVersion hv]
    · exact ih hrest hm

theorem packageVersions_setField
    (h : config.setField "package_versions" (.mapping entries) = .ok config') :
    config'.packageVersions = addVersions config.packageVersions entries := by
  rw [← Except.ok.inj h]

theorem packageVersions_setFields_of_forall_ne (h : config.setFields fields = .ok config')
    (hne : ∀ field ∈ fields, field.1.text? ≠ some "package_versions") :
    config'.packageVersions = config.packageVersions := by
  induction fields generalizing config with
  | nil => rw [← Except.ok.inj h]
  | cons field rest ih =>
    obtain ⟨key, value⟩ := field
    obtain ⟨hkey, hrest⟩ := List.forall_mem_cons.mp hne
    rw [setFields] at h
    split at h
    · rename_i name hname
      obtain ⟨first, hfirst, h⟩ := bind_eq_ok.mp h
      rw [ih h hrest]
      exact (sets_of_setField (mapError_eq_ok_iff.mp hfirst)).packageVersions_of_ne
        fun heq => hkey (by rw [hname, heq])
    · exact ih h hrest

/-- The versions are set once, and no other field touches them. -/
theorem packageVersions_setFields (h : config.setFields fields = .ok config')
    (hd : Yaml.Node.DistinctKeys fields)
    (hm : (.scalar (.text "package_versions"), .mapping entries) ∈ fields) :
    config'.packageVersions = addVersions config.packageVersions entries := by
  induction fields generalizing config with
  | nil => cases hm
  | cons field rest ih =>
    obtain ⟨key, value⟩ := field
    obtain ⟨hrest, hother⟩ := hd.of_cons
    rw [setFields] at h
    rcases List.mem_cons.mp hm with heq | hm
    · obtain ⟨rfl, rfl⟩ := Prod.mk.inj heq
      obtain ⟨first, hfirst, h⟩ := bind_eq_ok.mp h
      rw [packageVersions_setFields_of_forall_ne h (hother _ rfl),
        packageVersions_setField (mapError_eq_ok_iff.mp hfirst)]
    · split at h
      · rename_i name hname
        obtain ⟨first, hfirst, h⟩ := bind_eq_ok.mp h
        have hsets := sets_of_setField (mapError_eq_ok_iff.mp hfirst)
        rw [ih h hrest hm, hsets.packageVersions_of_ne]
        rintro rfl
        exact hother _ hname _ hm rfl
      · exact ih h hrest hm

/-- The scalar that the first document gives for the version of a package. -/
def versionScalar? (text package : String) : Option Yaml.Scalar := do
  let document ← (← (Yaml.documents text).toOption).head?
  let versions ← Yaml.Node.field? "package_versions" (← document.entries?)
  let version ← Yaml.Node.field? package (← versions.entries?)
  match version with
  | .scalar value => some value
  | _ => none

theorem exists_of_versionScalar? {text : String} {scalar : Yaml.Scalar}
    (h : versionScalar? text name = some scalar) :
    ∃ fields entries documents,
      Yaml.documents text = .ok (.mapping fields :: documents) ∧
        Yaml.Node.field? "package_versions" fields = some (.mapping entries) ∧
        Yaml.Node.field? name entries = some (.scalar scalar) := by
  unfold versionScalar? at h
  obtain ⟨read, hread, h⟩ := Option.bind_eq_some_iff.mp h
  obtain ⟨document, hhead, h⟩ := Option.bind_eq_some_iff.mp h
  obtain ⟨fields, hfields, h⟩ := Option.bind_eq_some_iff.mp h
  obtain ⟨node, hnode, h⟩ := Option.bind_eq_some_iff.mp h
  obtain ⟨entries, hentries, h⟩ := Option.bind_eq_some_iff.mp h
  obtain ⟨entry, hentry, h⟩ := Option.bind_eq_some_iff.mp h
  split at h
  · obtain rfl := Option.some.inj h
    obtain rfl := Yaml.Node.entries?_eq_some_iff.mp hfields
    obtain rfl := Yaml.Node.entries?_eq_some_iff.mp hentries
    obtain ⟨documents, rfl⟩ := List.head?_eq_some_iff.mp hhead
    exact ⟨fields, entries, documents, toOption_eq_some hread, hnode, hentry⟩
  · cases h

/-- What the document gives for the version of a package is stored for it. -/
theorem get?_packageVersions {text : String} {scalar : Yaml.Scalar} (h : parse text = .ok config)
    (hs : versionScalar? text name = some scalar)
    (hv : (Yaml.Node.scalar scalar).versionText? = some version) :
    Table.get? name config.packageVersions = some version := by
  obtain ⟨fields, entries, documents, hread, hfield, hentry⟩ := exists_of_versionScalar? hs
  have hloaded := Yaml.loaded_of_documents hread _ List.mem_cons_self
  cases hloaded with
  | mapping hd _ hvalues =>
    have hm := (Yaml.Node.field?_eq_some_iff hd).mp hfield
    cases hvalues _ hm with
    | mapping hdistinct _ _ =>
      have hm' := (Yaml.Node.field?_eq_some_iff hdistinct).mp hentry
      rw [parse, hread] at h
      have hset : ({} : Config).setFields fields = .ok config := h
      rw [packageVersions_setFields hset hd hm]
      exact get?_addVersions hdistinct hm' hv

end Config

namespace Package

variable {package : Package} {config : Config} {version : String}

theorem url_of_version (h : Table.get? package.name config.packageVersions = some version) :
    package.url config = config.packageCdn ++ "/" ++ package.name ++ "@" ++ version ++
      (package.subpath.map ("/" ++ ·)).getD "" := by
  unfold url
  rw [h]
  cases package.subpath with
  | none => simp [String.append_assoc]
  | some subpath => simp [String.append_assoc]

end Package

namespace Config

/-- A version that is written as a numeral is stored, and delivered, as the text that is printed for
the number. It is read as the same number, and it is the text that was written just when no zero can
be left out of the numeral and no other decimal that is read as that number is shorter or, of those
as short, nearer. Fifteen digits are short enough. -/
theorem version_kept_iff {text name : String} {config : Config} {numeral : Numeral}
    (hs : versionScalar? text name = some (.ofPlain numeral.text))
    (hparse : parse text = .ok config)
    (hwhole : natOfDigits numeral.whole ≤ Int64.maxValue.toInt) :
    ∃ version, Table.get? name config.packageVersions = some version ∧
      (∀ package : Package, package.name = name → package.url config =
        config.packageCdn ++ "/" ++ name ++ "@" ++ version ++
          (package.subpath.map ("/" ++ ·)).getD "") ∧
      Decimal.parse version.toList = Decimal.parse numeral.text.toList ∧
      (version = numeral.text ↔ numeral.Printed) ∧
      ((numeral.whole ++ numeral.fraction).length ≤ 15 →
        (version = numeral.text ↔ numeral.Reduced)) := by
  obtain ⟨version, hv, hnumber, hkept⟩ := Yaml.Node.exists_versionText?_eq hwhole
  have hstored := get?_packageVersions hparse hs hv
  refine ⟨version, hstored, ?_, hnumber, hkept, fun hl => ?_⟩
  · rintro package rfl
    exact Package.url_of_version hstored
  · rw [hkept]
    exact ⟨fun h => h.toReduced, fun h => h.printed hl⟩

/-- A minor version that ends in a zero. -/
def trailingZero : Numeral :=
  ⟨['1', '8'], ['1', '0'], List.all_eq_true.mp rfl, List.all_eq_true.mp rfl, by decide⟩

theorem version_kept_iff_of_trailing_zero :
    ∃ version,
      Table.get? "react" [("react", "18.1")] = some version ∧
        (∀ package : Package, package.name = "react" →
          package.url { packageVersions := [("react", "18.1")] } =
            "https://esm.sh" ++ "/" ++ "react" ++ "@" ++ version ++
              (package.subpath.map ("/" ++ ·)).getD "") ∧
        Decimal.parse version.toList = Decimal.parse trailingZero.text.toList ∧
        (version = trailingZero.text ↔ trailingZero.Printed) ∧
        ((trailingZero.whole ++ trailingZero.fraction).length ≤ 15 →
          (version = trailingZero.text ↔ trailingZero.Reduced)) := by
  have hs : versionScalar? "package_versions:\n  react: 18.10\n" "react" =
      some (.ofPlain trailingZero.text) := by decide +kernel
  have hparse : parse "package_versions:\n  react: 18.10\n" =
      .ok { packageVersions := [("react", "18.1")] } := by decide +kernel
  exact version_kept_iff hs hparse (by decide)

/-- The zero is lost, and another version is delivered. -/
theorem version_shortened :
    versionScalar? "package_versions:\n  react: 18.10\n" "react" = some (.ofPlain trailingZero.text) ∧
      ∃ config, parse "package_versions:\n  react: 18.10\n" = .ok config ∧
        Table.get? "react" config.packageVersions = some "18.1" ∧
        Package.url ⟨"react", none⟩ config = "https://esm.sh/react@18.1" ∧
        trailingZero.text = "18.10" := by
  refine ⟨by decide +kernel, { packageVersions := [("react", "18.1")] }, ?_, ?_, ?_, ?_⟩
  · decide +kernel
  · rfl
  · rfl
  · rfl

end Config

end LivePreview
