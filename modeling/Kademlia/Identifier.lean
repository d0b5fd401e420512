import Kademlia.Text
import Kademlia.Package

/-!
# Package identifiers

On the command line a package is named by its domain and its name, with a colon
between them, and what to install by a version after a second colon. The version
is cut off at the last colon, and what is before it at the first, with a check
that no third one is left. So the three parts are free of colons, which is what
the key of a package rests on: it is made of domain and package with a colon
between them, and a domain with a colon in it could pass for another pair
(`latestText_inj`).

A version is three numbers between dots. They are read as the standard library
reads them, with leading zeros and with a plus sign, so several texts are the
same version, of which `toString` writes one.
-/

namespace Kademlia

/-! ## Versions as text

The number of parts is checked before they are read, so a text with more or
fewer dots is refused whatever is between them. -/

/-- A text is not a version. -/
structure ParseVersionError where
deriving DecidableEq

/-- A 32-bit unsigned number, as the standard library reads it. -/
def parseU32 (cs : List Char) : Option UInt32 :=
  (Text.readNumeral (2 ^ 32) cs).map UInt32.ofNat

/-- Read three numbers between dots. -/
def Version.fromStr (s : String) : Except ParseVersionError Version :=
  match s.toList.splitOn '.' with
  | [major, minor, patch] =>
    match parseU32 major, parseU32 minor, parseU32 patch with
    | some major, some minor, some patch => .ok ⟨major, minor, patch⟩
    | _, _, _ => .error ⟨⟩
  | _ => .error ⟨⟩

/-- Three numbers between dots. -/
instance : ToString Version :=
  ⟨fun v => toString v.major.toNat ++ "." ++ toString v.minor.toNat ++ "."
    ++ toString v.patch.toNat⟩

/-! ## Identifiers

Each reader has one text for what is not of its shape. The second has another
one for what is not a version, given once the name in front of the last colon
was read. -/

/-- Read `DOMAIN:PACKAGE`. -/
def parsePackageName (input : String) : Except String (String × String) :=
  match Text.splitOnce ':' input.toList with
  | none => .error "expected DOMAIN:PACKAGE"
  | some (domain, package) =>
    if domain.isEmpty || package.isEmpty || package.contains ':' then
      .error "expected DOMAIN:PACKAGE"
    else .ok (String.ofList domain, String.ofList package)

/-- Read `DOMAIN:PACKAGE:VERSION`, where the version may be `latest`. -/
def parseInstallName (input : String) : Except String (String × String × Option Version) :=
  match Text.rsplitOnce ':' input.toList with
  | none => .error "expected DOMAIN:PACKAGE:VERSION"
  | some (name, version) =>
    match parsePackageName (String.ofList name) with
    | .error _ => .error "expected DOMAIN:PACKAGE:VERSION"
    | .ok (domain, package) =>
      if String.ofList version = "latest" then .ok (domain, package, none)
      else
        match Version.fromStr (String.ofList version) with
        | .error _ => .error "invalid version; expected major.minor.patch or latest"
        | .ok version => .ok (domain, package, some version)

/-! ## What versions are written as

The reader is characterised by the texts it takes, from the numerals
upwards. -/

/-- **A text of a version**: its numbers in decimal, between dots. -/
def Version.WrittenAs (v : Version) (t : String) : Prop :=
  ∃ major minor patch : String, t = major ++ "." ++ minor ++ "." ++ patch
    ∧ Text.Numeral major.toList v.major.toNat ∧ Text.Numeral minor.toList v.minor.toNat
    ∧ Text.Numeral patch.toList v.patch.toNat

theorem parseU32_eq_some_iff {cs : List Char} {n : UInt32} :
    parseU32 cs = some n ↔ Text.Numeral cs n.toNat := by
  unfold parseU32
  rw [Option.map_eq_some_iff]
  constructor
  · rintro ⟨m, hread, rfl⟩
    obtain ⟨hnum, hlt⟩ := (Text.readNumeral_eq_some_iff (by decide)).mp hread
    rwa [UInt32.toNat_ofNat_of_lt' hlt]
  · intro hnum
    refine ⟨n.toNat, (Text.readNumeral_eq_some_iff (by decide)).mpr ⟨hnum, n.toNat_lt⟩, ?_⟩
    exact UInt32.ofNat_toNat

/-- The characters of three texts with dots between them. -/
theorem toList_dots (a b c : String) :
    (a ++ "." ++ b ++ "." ++ c).toList = ['.'].intercalate [a.toList, b.toList, c.toList] := by
  simp [String.toList_append, List.intercalate]

/-- **Exactly the texts of a version are read as it.** Numerals have no dots in
them, so the text of a version splits into its three numerals and nothing
else. -/
theorem Version.fromStr_eq_ok_iff {t : String} {v : Version} :
    Version.fromStr t = .ok v ↔ v.WrittenAs t := by
  unfold Version.fromStr
  constructor
  · intro h
    split at h
    · next major minor patch hsplit =>
      split at h
      · next hmajor hminor hpatch =>
        cases h
        refine ⟨String.ofList major, String.ofList minor, String.ofList patch, ?_, ?_, ?_, ?_⟩
        · rw [← String.toList_inj, toList_dots, String.toList_ofList, String.toList_ofList,
            String.toList_ofList, ← hsplit, List.intercalate_splitOn]
        · rw [String.toList_ofList]
          exact parseU32_eq_some_iff.mp hmajor
        · rw [String.toList_ofList]
          exact parseU32_eq_some_iff.mp hminor
        · rw [String.toList_ofList]
          exact parseU32_eq_some_iff.mp hpatch
      · cases h
    · cases h
  · rintro ⟨major, minor, patch, rfl, hmajor, hminor, hpatch⟩
    have hdot : ∀ {cs n}, Text.Numeral cs n → '.' ∉ cs :=
      fun h => h.not_mem (by decide) (by decide)
    have hsplit : (major ++ "." ++ minor ++ "." ++ patch).toList.splitOn '.'
        = [major.toList, minor.toList, patch.toList] := by
      rw [toList_dots]
      refine List.splitOn_intercalate '.' ?_ (List.cons_ne_nil _ _)
      simpa using ⟨hdot hmajor, hdot hminor, hdot hpatch⟩
    rw [hsplit]
    dsimp only
    rw [parseU32_eq_some_iff.mpr hmajor, parseU32_eq_some_iff.mpr hminor,
      parseU32_eq_some_iff.mpr hpatch]

/-- A version is written as what is printed. -/
theorem Version.writtenAs_toString (v : Version) : v.WrittenAs (toString v) := by
  have hnum : ∀ n : ℕ, Text.Numeral (toString n).toList n := by
    intro n
    rw [Nat.toString_eq_ofList_toDigits, String.toList_ofList]
    exact Text.numeral_toDigits n
  exact ⟨_, _, _, rfl, hnum _, hnum _, hnum _⟩

/-- A text of a version has no colon in it. -/
theorem Version.WrittenAs.not_mem {v : Version} {t : String} (h : v.WrittenAs t) :
    ':' ∉ t.toList := by
  obtain ⟨major, minor, patch, rfl, hmajor, hminor, hpatch⟩ := h
  have hcolon : ∀ {cs n}, Text.Numeral cs n → ':' ∉ cs :=
    fun h => h.not_mem (by decide) (by decide)
  simp [String.toList_append, hcolon hmajor, hcolon hminor, hcolon hpatch]

/-! ## What identifiers are made of

The two cuts are made from different ends. Between the first and the last colon
is what has to be free of them. -/

/-- **A pair that names a package**: neither part is empty or has a colon in it. -/
structure IsName (domain package : String) : Prop where
  /-- The domain is not empty. -/
  domain_ne : domain ≠ ""
  /-- Nor is the package. -/
  package_ne : package ≠ ""
  /-- The domain has no colon in it. -/
  domain_colon : ':' ∉ domain.toList
  /-- Nor has the package. -/
  package_colon : ':' ∉ package.toList

/-- **What asks for a version**, or for the latest. -/
def AsksFor (t : String) (version : Option Version) : Prop :=
  t = "latest" ∧ version = none ∨ ∃ v, version = some v ∧ v.WrittenAs t

/-- Text with a colon in it, by its characters. -/
theorem eq_colon_iff {s a b : String} :
    s = a ++ ":" ++ b ↔ s.toList = a.toList ++ ':' :: b.toList := by
  rw [← String.toList_inj]
  simp [String.toList_append]

/-- **Exactly the names of packages are read as such.** -/
theorem parsePackageName_eq_ok_iff {s domain package : String} :
    parsePackageName s = .ok (domain, package)
      ↔ s = domain ++ ":" ++ package ∧ IsName domain package := by
  have hempty : ∀ t : String, t.toList.isEmpty = true ↔ t = "" := by
    intro t
    rw [List.isEmpty_iff, ← String.toList_inj]
    rfl
  rw [eq_colon_iff]
  unfold parsePackageName
  constructor
  · intro h
    split at h
    · cases h
    · next d p hsplit =>
      obtain ⟨hs, hcolon⟩ := Text.splitOnce_eq_some_iff.mp hsplit
      split at h
      · cases h
      · next hrest =>
        cases h
        simp only [Bool.or_eq_true, List.contains_iff_mem, not_or] at hrest
        rw [String.toList_ofList, String.toList_ofList]
        refine ⟨hs, fun h => hrest.1.1 ?_, fun h => hrest.1.2 ?_, ?_, ?_⟩
        · rw [← hempty, String.toList_ofList] at h
          exact h
        · rw [← hempty, String.toList_ofList] at h
          exact h
        · rwa [String.toList_ofList]
        · rw [String.toList_ofList]
          exact hrest.2
  · rintro ⟨hs, hname⟩
    rw [Text.splitOnce_eq_some_iff.mpr ⟨hs, hname.domain_colon⟩]
    dsimp only
    rw [if_neg, String.ofList_toList, String.ofList_toList]
    simp only [Bool.or_eq_true, List.contains_iff_mem, not_or, hempty]
    exact ⟨⟨hname.domain_ne, hname.package_ne⟩, hname.package_colon⟩

/-- **Exactly what names a package and a version is read as such.** The last
cut leaves what asks for the version behind it, free of colons; in front of it
is what the name reader takes. -/
theorem parseInstallName_eq_ok_iff {s domain package : String} {version : Option Version} :
    parseInstallName s = .ok (domain, package, version)
      ↔ ∃ t, s = domain ++ ":" ++ package ++ ":" ++ t ∧ IsName domain package
        ∧ ':' ∉ t.toList ∧ AsksFor t version := by
  unfold parseInstallName
  constructor
  · intro h
    split at h
    · cases h
    · next name t hsplit =>
      obtain ⟨hs, hcolon⟩ := Text.rsplitOnce_eq_some_iff.mp hsplit
      split at h
      · cases h
      · next d p hname =>
        obtain ⟨hnames, hisName⟩ := parsePackageName_eq_ok_iff.mp hname
        -- the last colon is after the name, which has the other one
        have hjoined : s = d ++ ":" ++ p ++ ":" ++ String.ofList t := by
          rw [← hnames, eq_colon_iff, String.toList_ofList, String.toList_ofList]
          exact hs
        have hcolon' : ':' ∉ (String.ofList t).toList := by rwa [String.toList_ofList]
        split at h
        · next hlatest =>
          cases h
          exact ⟨_, hjoined, hisName, hcolon', Or.inl ⟨hlatest, rfl⟩⟩
        · split at h
          · cases h
          · next v hv =>
            cases h
            exact ⟨_, hjoined, hisName, hcolon',
              Or.inr ⟨v, rfl, Version.fromStr_eq_ok_iff.mp hv⟩⟩
  · rintro ⟨t, rfl, hname, hcolon, hrequests⟩
    have hsplit : Text.rsplitOnce ':' (domain ++ ":" ++ package ++ ":" ++ t).toList
        = some ((domain ++ ":" ++ package).toList, t.toList) :=
      Text.rsplitOnce_eq_some_iff.mpr ⟨eq_colon_iff.mp rfl, hcolon⟩
    rw [hsplit]
    dsimp only
    rw [String.ofList_toList, String.ofList_toList, parsePackageName_eq_ok_iff.mpr ⟨rfl, hname⟩]
    dsimp only
    rcases hrequests with ⟨rfl, rfl⟩ | ⟨v, rfl, hv⟩
    · rw [if_pos rfl]
    · -- no version is written as `latest`
      have hnot : t ≠ "latest" := by
        rintro rfl
        have hlatest := Version.fromStr_eq_ok_iff.mpr hv
        have hnone : Version.fromStr "latest" = .error ⟨⟩ := by decide +kernel
        rw [hnone] at hlatest
        cases hlatest
      rw [if_neg hnot, Version.fromStr_eq_ok_iff.mpr hv]

/-- A pair of domain and package that some identifier is read as. -/
def IsRead (domain package : String) : Prop :=
  (∃ s, parsePackageName s = .ok (domain, package))
    ∨ ∃ s version, parseInstallName s = .ok (domain, package, version)

theorem IsRead.isName {domain package : String} (h : IsRead domain package) :
    IsName domain package := by
  rcases h with ⟨s, h⟩ | ⟨s, version, h⟩
  · exact (parsePackageName_eq_ok_iff.mp h).2
  · obtain ⟨t, -, hname, -⟩ := parseInstallName_eq_ok_iff.mp h
    exact hname

/-- **Identifiers are read by exactly their grammar.** What is printed is read
back, with every version. And the domain that comes out is never refused for a
colon, and the pair that comes out is told apart by the text its latest key is
made of.

The last two are why the grammar matters beyond the command line: a node
refuses pointers of a domain with a colon in it, and a package whose domain had
one would share its key with another. Neither can be asked for. -/
theorem identifiers_by_grammar :
    (∀ s domain package version, parseInstallName s = .ok (domain, package, version)
        ↔ ∃ t, s = domain ++ ":" ++ package ++ ":" ++ t
          ∧ domain ≠ "" ∧ package ≠ ""
          ∧ ':' ∉ domain.toList ∧ ':' ∉ package.toList ∧ ':' ∉ t.toList
          ∧ (t = "latest" ∧ version = none ∨ ∃ v, version = some v ∧ v.WrittenAs t))
      ∧ (∀ domain package (v : Version), domain ≠ "" → package ≠ "" →
        ':' ∉ domain.toList → ':' ∉ package.toList →
        parseInstallName (domain ++ ":" ++ package ++ ":" ++ toString v)
          = .ok (domain, package, some v))
      ∧ (∀ v : Version, Version.fromStr (toString v) = .ok v)
      ∧ (∀ domain package, IsRead domain package →
        ∀ (crypto : Crypto) (pointer : Signed LatestPointer) (owner : VerifyingKey),
          pointer.body.domain = domain →
          latestIsValid crypto pointer owner
            = (pointer.body.tag == latestPointerTag && pointer.verify crypto owner))
      ∧ ∀ domain package domain' package', IsRead domain package → IsRead domain' package' →
        latestText domain package = latestText domain' package' →
        domain = domain' ∧ package = package' := by
  refine ⟨fun s domain package version => ?_, fun domain package v hd hp hd' hp' => ?_,
    fun v => Version.fromStr_eq_ok_iff.mpr v.writtenAs_toString, ?_, ?_⟩
  · rw [parseInstallName_eq_ok_iff]
    refine exists_congr fun t => and_congr_right fun _ => ?_
    constructor
    · rintro ⟨⟨hd, hp, hd', hp'⟩, ht, hrequests⟩
      exact ⟨hd, hp, hd', hp', ht, hrequests⟩
    · rintro ⟨hd, hp, hd', hp', ht, hrequests⟩
      exact ⟨⟨hd, hp, hd', hp'⟩, ht, hrequests⟩
  · have hwritten := v.writtenAs_toString
    exact parseInstallName_eq_ok_iff.mpr
      ⟨_, rfl, ⟨hd, hp, hd', hp'⟩, hwritten.not_mem, Or.inr ⟨v, rfl, hwritten⟩⟩
  · rintro domain package hread crypto pointer owner rfl
    have hcolon : pointer.body.domain.toList.contains ':' = false :=
      Bool.eq_false_iff.mpr fun h => hread.isName.domain_colon (List.contains_iff_mem.mp h)
    unfold latestIsValid
    rw [hcolon, Bool.not_false, Bool.and_true]
  · intro domain package domain' package' h h' htext
    exact latestText_inj h.isName.domain_colon h'.isName.domain_colon htext

example : parseInstallName "a:p:01.+2.4294967295"
    = .ok ("a", "p", some ⟨1, 2, 4294967295⟩) := by
  decide +kernel

end Kademlia
