import Rumahl.Packages.Tree

/-!
# Package verification

`PackageVerifier.verify` reads the two documents of a package, checks the signature over the
manifest against the trust store and then compares the payload of the tree with the files that the
manifest lists. `verify_eq_ok` says exactly which packages pass; `verify_sound` states what a
verified package is and that tampering with a package makes verification fail.
-/

open List Except

namespace Rumahl

structure VerifiedFile where
  path : PackagePath
  size : Nat
  sha256 : ByteVector 32

structure VerifiedPackage where
  manifest : PackageManifest
  signingKeyId : String
  files : List VerifiedFile

def VerifiedPackage.toAppManifest (p : VerifiedPackage) : Except PackageManifestError AppManifest :=
  p.manifest.toAppManifest

/-- What stands at the path that is to be verified. -/
inductive PackageRoot (B : Type) where
  | missing
  | symlink
  | other
  | directory (entries : Listing B) (readable : Bool)

/-- What stands under a name: a directory, or something else. -/
inductive Node (B : Type) where
  | directory
  | leaf (leaf : Leaf B)

def Listing.lookup (name : String) : Listing B → Option (Node B)
  | .nil => none
  | .leaf name' entry rest => if name'.display = name then some (.leaf entry) else rest.lookup name
  | .directory name' _ _ rest => if name'.display = name then some .directory else rest.lookup name

section

variable (P : Primitives)

def readDocument (entries : Listing P.Bytes) (file : String) (maxBytes : Nat) :
    Except PackageVerificationError P.Bytes :=
  match entries.lookup file with
  | none | some (.leaf .unknown) => .error (.documentRead file)
  | some (.leaf .symlink) => .error (.documentSymlink file)
  | some .directory | some (.leaf .special) => .error (.documentNotRegular file)
  | some (.leaf (.file content readable)) =>
    if maxBytes < P.length content then .error (.documentTooLarge file)
    else if readable then .ok content
    else .error (.documentRead file)

/-- `HashMap::remove` on the listed files, whose paths are distinct. -/
def takeListed (path : String) : List PackageFile → Option (PackageFile × List PackageFile)
  | [] => none
  | file :: files =>
    if file.path.value = path then some (file, files)
    else (takeListed path files).map fun (expected, rest) => (expected, file :: rest)

/-- The smallest of the paths. -/
def minPath : List PackageFile → Option String
  | [] => none
  | file :: files =>
    match minPath files with
    | none => some file.path.value
    | some path => some (if file.path.value ≤ path then file.path.value else path)

/-- The loop over the files that were found, with the listed files that are left. -/
def verifyFiles : List (FoundFile P.Bytes) → List PackageFile →
    Except PackageVerificationError (List VerifiedFile)
  | [], listed =>
    match minPath listed with
    | none => .ok []
    | some path => .error (.missingFile path)
  | file :: found, listed =>
    match takeListed file.path listed with
    | none => .error (.unlistedFile file.path)
    | some (expected, listed) =>
      if P.length file.content ≠ expected.size then
        .error (.fileSizeMismatch file.path expected.size (P.length file.content))
      else if !file.readable then .error (.fileRead file.path)
      else if P.sha256 file.content ≠ expected.sha256 then .error (.fileDigestMismatch file.path)
      else do
        let verified ← verifyFiles found listed
        pure (⟨expected.path, expected.size, P.sha256 file.content⟩ :: verified)

def verifyPayload (root : String) (entries : Listing P.Bytes) (readable : Bool)
    (manifest : PackageManifest) : Except PackageVerificationError (List VerifiedFile) := do
  let found ← collectPayloadFiles root entries readable
  verifyFiles P found manifest.files

/-- `PackageVerifier::verify` on the package at the path `path`. -/
def PackageVerifier.verify (store : TrustStore) (path : String) (root : PackageRoot P.Bytes) :
    Except PackageVerificationError VerifiedPackage :=
  match root with
  | .missing => .error (.documentRead "package root")
  | .symlink | .other => .error .rootIsNotDirectory
  | .directory entries readable => do
    let manifestBytes ← readDocument P entries manifestFile maxManifestBytes
    let manifest ← (PackageManifest.fromBytes P manifestBytes).mapError .manifest
    let signatureBytes ← readDocument P entries signatureFile maxSignatureBytes
    let envelope ← (SignatureEnvelope.fromBytes P signatureBytes).mapError .signature
    match store.verifyingKey manifest.publisherId envelope.keyId with
    | none => .error .unknownSigningKey
    | some key =>
      if P.verify key manifestBytes envelope.signature then do
        let files ← verifyPayload P path entries readable manifest
        pure ⟨manifest, envelope.keyId, files⟩
      else .error .invalidSignature

end

/-! ## The payload and the list -/

/-- What a signature says about a file. -/
structure FileRecord where
  path : String
  size : Nat
  sha256 : ByteVector 32

def PackageFile.record (file : PackageFile) : FileRecord :=
  ⟨file.path.value, file.size, file.sha256⟩

def VerifiedFile.record (file : VerifiedFile) : FileRecord :=
  ⟨file.path.value, file.size, file.sha256⟩

theorem VerifiedFile.record_injective : Function.Injective VerifiedFile.record := by
  rintro ⟨path, size, sha256⟩ ⟨path', size', sha256'⟩ h
  obtain ⟨hpath, rfl, rfl⟩ := FileRecord.mk.inj h
  obtain rfl : path = path' := Checked.ext hpath
  rfl

variable {P : Primitives}

def FoundFile.record (file : FoundFile P.Bytes) : FileRecord :=
  ⟨file.path, P.length file.content, P.sha256 file.content⟩

def RegularFile.record (file : RegularFile P.Bytes) : FileRecord :=
  ⟨pathText file.path, P.length file.content, P.sha256 file.content⟩

theorem takeListed_eq_some (h : takeListed path listed = some (expected, rest)) :
    expected.path.value = path ∧ listed.Perm (expected :: rest) := by
  induction listed generalizing rest with
  | nil => cases h
  | cons file files ih =>
    rw [takeListed] at h
    split at h
    · next hpath =>
      cases h
      exact ⟨hpath, .refl _⟩
    · obtain ⟨⟨expected', rest'⟩, h', heq⟩ := Option.map_eq_some_iff.mp h
      cases heq
      obtain ⟨hpath, hperm⟩ := ih h'
      exact ⟨hpath, (hperm.cons file).trans (.swap _ _ _)⟩

theorem takeListed_eq_none :
    takeListed path listed = none ↔ ∀ file ∈ listed, file.path.value ≠ path := by
  induction listed with
  | nil => simp [takeListed]
  | cons file files ih =>
    rw [takeListed, forall_mem_cons, ← ih]
    split
    · next hpath => simp [hpath]
    · next hpath => simp [hpath]

theorem minPath_eq_none : minPath listed = none ↔ listed = [] := by
  cases listed with
  | nil => simp [minPath]
  | cons file files =>
    rw [minPath]
    split <;> simp

/-- The listed file under a path is the only one that can match a file at that path. -/
theorem perm_of_takeListed (file : FileRecord) (hlisted : (listed.map PackageFile.path).Nodup)
    (h : takeListed file.path listed = some (expected, rest)) :
    (file :: records).Perm (listed.map PackageFile.record) ↔
      file = expected.record ∧ records.Perm (rest.map PackageFile.record) := by
  obtain ⟨hpath, hsplit⟩ := takeListed_eq_some h
  have hrecords := hsplit.map PackageFile.record
  constructor
  · intro hperm
    obtain ⟨listed', hmem, hrecord⟩ := mem_map.mp (hperm.subset mem_cons_self)
    have hsame : listed'.path = expected.path := by
      apply Checked.ext
      exact (congrArg FileRecord.path hrecord).trans hpath.symm
    have hexpected : expected ∈ listed := hsplit.mem_iff.mpr mem_cons_self
    obtain rfl := inj_on_of_nodup_map hlisted hmem hexpected hsame
    obtain rfl := hrecord
    exact ⟨rfl, (hperm.trans hrecords).cons_inv⟩
  · rintro ⟨rfl, hperm⟩
    exact (hperm.cons _).trans hrecords.symm

/-- The files match the list if they are, in some order, the listed files and all of them can be
read. -/
theorem verifyFiles_eq_ok (hlisted : (listed.map PackageFile.path).Nodup) :
    verifyFiles P found listed = .ok verified ↔
      (found.map FoundFile.record).Perm (listed.map PackageFile.record) ∧
      (∀ file ∈ found, file.readable = true) ∧
      verified.map VerifiedFile.record = found.map FoundFile.record := by
  induction found generalizing listed verified with
  | nil =>
    rw [verifyFiles]
    constructor
    · intro h
      split at h
      · next hmin =>
        cases h
        rw [minPath_eq_none.mp hmin]
        exact ⟨.refl _, fun _ h => (nomatch h), rfl⟩
      · cases h
    · rintro ⟨hperm, -, hverified⟩
      have hnil : listed = [] := by simpa using hperm
      rw [minPath_eq_none.mpr hnil]
      simpa [eq_comm] using hverified
  | cons file found ih =>
    rw [verifyFiles, map_cons]
    cases htake : takeListed file.path listed with
    | none =>
      refine ⟨(nomatch ·), fun ⟨hperm, _⟩ => ?_⟩
      obtain ⟨expected, hmem, hrecord⟩ := mem_map.mp (hperm.subset mem_cons_self)
      exact absurd (congrArg FileRecord.path hrecord) (takeListed_eq_none.mp htake expected hmem)
    | some taken =>
      obtain ⟨expected, rest⟩ := taken
      obtain ⟨hpath, hsplit⟩ := takeListed_eq_some htake
      have hrest : (rest.map PackageFile.path).Nodup :=
        (nodup_cons.mp ((hsplit.map PackageFile.path).nodup_iff.mp hlisted)).2
      rw [perm_of_takeListed file.record hlisted htake, forall_mem_cons]
      have hrecord : file.record = expected.record ↔
          P.length file.content = expected.size ∧ P.sha256 file.content = expected.sha256 := by
        simp [FoundFile.record, PackageFile.record, hpath]
      rw [hrecord]
      dsimp only
      split
      · next hsize => exact ⟨(nomatch ·), fun ⟨⟨h, _⟩, _⟩ => absurd h.1 hsize⟩
      split
      · next hread => exact ⟨(nomatch ·), fun ⟨_, ⟨h, _⟩, _⟩ => by simp [h] at hread⟩
      split
      · next hsha => exact ⟨(nomatch ·), fun ⟨⟨h, _⟩, _⟩ => absurd h.2 hsha⟩
      next hsize hread hsha =>
      have hfile : VerifiedFile.record ⟨expected.path, expected.size, P.sha256 file.content⟩ =
          file.record := by
        simp [VerifiedFile.record, FoundFile.record, hpath, Decidable.not_not.mp hsize]
      rw [bind_eq_ok]
      constructor
      · rintro ⟨verified', h, heq⟩
        obtain ⟨hperm, hreadable, hverified⟩ := (ih hrest).mp h
        obtain rfl := Except.ok.inj heq
        rw [map_cons, hfile, hverified]
        exact ⟨⟨⟨Decidable.not_not.mp hsize, Decidable.not_not.mp hsha⟩, hperm⟩,
          ⟨by simpa using hread, hreadable⟩, rfl⟩
      · rintro ⟨⟨-, hperm⟩, ⟨-, hreadable⟩, hverified⟩
        obtain ⟨first, verified', rfl, hfirst, hverified'⟩ := map_eq_cons_iff.mp hverified
        refine ⟨verified', (ih hrest).mpr ⟨hperm, hreadable, hverified'⟩, ?_⟩
        rw [VerifiedFile.record_injective (hfirst.trans hfile.symm)]
        rfl

/-! ## Verified packages -/

theorem readDocument_eq_ok : readDocument P entries file maxBytes = .ok bytes ↔
      entries.lookup file = some (.leaf (.file bytes true)) ∧ P.length bytes ≤ maxBytes := by
  rw [readDocument]
  split
  · next h => simp [h]
  · next h => simp [h]
  · next h => simp [h]
  · next h => simp [h]
  · next h => simp [h]
  · next content readable h =>
    rw [h]
    split
    · next hlen =>
      refine ⟨(nomatch ·), fun ⟨he, hle⟩ => ?_⟩
      cases he
      omega
    · next hlen =>
      cases readable with
      | false => simp
      | true =>
        constructor
        · intro h
          cases h
          exact ⟨rfl, Nat.not_lt.mp hlen⟩
        · rintro ⟨he, -⟩
          cases he
          rfl

/-- The tree below a root holds what the manifest lists: nothing but directories and regular files
that can be read, and apart from the documents the listed files. -/
structure Listing.Intact (entries : Listing P.Bytes) (manifest : PackageManifest) : Prop where
  legible : entries.Legible
  regular : ∀ leaf ∈ entries.leaves, leaf.isFile = true
  readable : ∀ file ∈ entries.payload, file.readable = true
  listed : (entries.payload.map RegularFile.record).Perm (manifest.files.map PackageFile.record)

/-- The documents of the package: a manifest and the signature of a trusted key over it. -/
structure Listing.SignedBy (entries : Listing P.Bytes) (store : TrustStore)
    (manifest : PackageManifest) (keyId : String) (manifestBytes signatureBytes : P.Bytes)
    (signature : ByteVector 64) (key : ByteVector 32) : Prop where
  manifest_found : entries.lookup manifestFile = some (.leaf (.file manifestBytes true))
  manifest_read : PackageManifest.fromBytes P manifestBytes = .ok manifest
  signature_found : entries.lookup signatureFile = some (.leaf (.file signatureBytes true))
  signature_read : SignatureEnvelope.fromBytes P signatureBytes = .ok ⟨keyId, signature⟩
  trusted : store.verifyingKey manifest.publisherId keyId = some key
  verifies : P.verify key manifestBytes signature = true

theorem verifyPayload_eq_ok : verifyPayload P path entries readable manifest = .ok verified ↔
      readable = true ∧ entries.Intact manifest ∧
        verified.map VerifiedFile.record = entries.payload.map RegularFile.record := by
  have hrecords : (entries.payload.map RegularFile.found).map (FoundFile.record) =
      entries.payload.map RegularFile.record := by
    rw [map_map]
    rfl
  rw [verifyPayload, bind_eq_ok]
  constructor
  · rintro ⟨found, hfound, h⟩
    obtain ⟨hroot, hlegible, hregular, -, rfl⟩ := collectPayloadFiles_eq_ok.mp hfound
    rw [verifyFiles_eq_ok manifest.paths_nodup, hrecords] at h
    obtain ⟨hlisted, hreadable, hverified⟩ := h
    exact ⟨hroot, ⟨hlegible, hregular, fun file hm => hreadable _ (mem_map_of_mem hm), hlisted⟩,
      hverified⟩
  · rintro ⟨hroot, hintact, hverified⟩
    -- The manifest lists at most as many files as the walk may find.
    have hcount : entries.payload.length ≤ maxFiles := by
      have := hintact.listed.length_eq
      rw [length_map, length_map] at this
      exact this ▸ manifest.files_le
    refine ⟨_, collectPayloadFiles_eq_ok.mpr
      ⟨hroot, hintact.legible, hintact.regular, hcount, rfl⟩, ?_⟩
    rw [verifyFiles_eq_ok manifest.paths_nodup, hrecords]
    exact ⟨hintact.listed, forall_mem_map.mpr hintact.readable, hverified⟩

theorem PackageManifest.length_le_of_fromBytes (h : PackageManifest.fromBytes P bytes = .ok m) :
    P.length bytes ≤ maxManifestBytes := by
  rw [fromBytes] at h
  split at h
  · cases h
  · next hlen => exact Nat.not_lt.mp hlen

theorem SignatureEnvelope.length_le_of_fromBytes (h : SignatureEnvelope.fromBytes P bytes = .ok e) :
    P.length bytes ≤ maxSignatureBytes := by
  rw [fromBytes] at h
  split at h
  · cases h
  · next hlen => exact Nat.not_lt.mp hlen

/-- The packages that pass, and what is reported of them. -/
theorem PackageVerifier.verify_eq_ok : verify P store path root = .ok p ↔
      ∃ entries manifestBytes signatureBytes signature key, root = .directory entries true ∧
        entries.SignedBy store p.manifest p.signingKeyId manifestBytes signatureBytes signature
          key ∧
        entries.Intact p.manifest ∧
        p.files.map VerifiedFile.record = entries.payload.map RegularFile.record := by
  constructor
  · intro h
    unfold verify at h
    split at h
    · cases h
    · cases h
    · cases h
    · next entries readable =>
      obtain ⟨manifestBytes, hm, h⟩ := bind_eq_ok.mp h
      obtain ⟨manifest, hmanifest, h⟩ := bind_eq_ok.mp h
      obtain ⟨signatureBytes, hs, h⟩ := bind_eq_ok.mp h
      obtain ⟨envelope, henvelope, h⟩ := bind_eq_ok.mp h
      split at h
      · cases h
      · next key hkey =>
        split at h
        · next hverify =>
          obtain ⟨files, hfiles, h⟩ := bind_eq_ok.mp h
          cases h
          obtain ⟨rfl, hintact, hrecords⟩ := verifyPayload_eq_ok.mp hfiles
          exact ⟨entries, manifestBytes, signatureBytes, envelope.signature, key, rfl,
            ⟨(readDocument_eq_ok.mp hm).1, mapError_eq_ok.mp hmanifest,
              (readDocument_eq_ok.mp hs).1, mapError_eq_ok.mp henvelope, hkey, hverify⟩,
            hintact, hrecords⟩
        · cases h
  · rintro ⟨entries, manifestBytes, signatureBytes, signature, key, rfl, hsigned, hintact, hfiles⟩
    have hmanifest : readDocument P entries manifestFile maxManifestBytes = .ok manifestBytes :=
      readDocument_eq_ok.mpr
        ⟨hsigned.manifest_found, PackageManifest.length_le_of_fromBytes hsigned.manifest_read⟩
    have hsignature : readDocument P entries signatureFile maxSignatureBytes = .ok signatureBytes :=
      readDocument_eq_ok.mpr
        ⟨hsigned.signature_found, SignatureEnvelope.length_le_of_fromBytes hsigned.signature_read⟩
    have hpayload : verifyPayload P path entries true p.manifest = .ok p.files :=
      verifyPayload_eq_ok.mpr ⟨rfl, hintact, hfiles⟩
    simp only [verify, hmanifest, hsigned.manifest_read, hsignature, hsigned.signature_read,
      hsigned.trusted, hsigned.verifies, hpayload, ok_bind, mapError_ok, if_true,
      pure_eq_ok]

/-- What can be wrong with the files of a package whose manifest is `manifest`. -/
inductive Listing.Tampered (entries : Listing P.Bytes) (manifest : PackageManifest) : Prop where
  | missing (file : PackageFile) (hfile : file ∈ manifest.files)
      (h : ∀ found ∈ entries.payload, pathText found.path ≠ file.path.value)
  | additional (found : RegularFile P.Bytes) (hfound : found ∈ entries.payload)
      (h : ∀ file ∈ manifest.files, pathText found.path ≠ file.path.value)
  | resized (found : RegularFile P.Bytes) (file : PackageFile) (hfound : found ∈ entries.payload)
      (hfile : file ∈ manifest.files) (hpath : pathText found.path = file.path.value)
      (h : P.length found.content ≠ file.size)
  | altered (found : RegularFile P.Bytes) (file : PackageFile) (hfound : found ∈ entries.payload)
      (hfile : file ∈ manifest.files) (hpath : pathText found.path = file.path.value)
      (h : P.sha256 found.content ≠ file.sha256)
  | symlink (h : .symlink ∈ entries.leaves)
  | special (h : .special ∈ entries.leaves)

theorem Listing.Intact.record_eq {entries : Listing P.Bytes} (h : entries.Intact manifest)
    {found : RegularFile P.Bytes} (hfound : found ∈ entries.payload) {file : PackageFile}
    (hfile : file ∈ manifest.files) (hpath : pathText found.path = file.path.value) :
    found.record = file.record := by
  obtain ⟨file', hfile', hrecord⟩ :=
    mem_map.mp (h.listed.subset (mem_map_of_mem hfound))
  have hsame : file'.path = file.path := by
    apply Checked.ext
    exact (congrArg FileRecord.path hrecord).trans hpath
  rw [← hrecord, inj_on_of_nodup_map manifest.paths_nodup hfile' hfile hsame]

theorem Listing.Intact.not_tampered {entries : Listing P.Bytes} (h : entries.Intact manifest) :
    ¬entries.Tampered manifest := by
  intro ht
  cases ht with
  | missing file hfile hmissing =>
    obtain ⟨found, hfound, hrecord⟩ :=
      mem_map.mp (h.listed.symm.subset (mem_map_of_mem hfile))
    exact hmissing found hfound (congrArg FileRecord.path hrecord)
  | additional found hfound hadditional =>
    obtain ⟨file, hfile, hrecord⟩ :=
      mem_map.mp (h.listed.subset (mem_map_of_mem hfound))
    exact hadditional file hfile (congrArg FileRecord.path hrecord).symm
  | resized found file hfound hfile hpath hsize =>
    exact hsize (congrArg FileRecord.size (h.record_eq hfound hfile hpath))
  | altered found file hfound hfile hpath hsha =>
    exact hsha (congrArg FileRecord.sha256 (h.record_eq hfound hfile hpath))
  | symlink hlink => exact nomatch h.regular _ hlink
  | special hspecial => exact nomatch h.regular _ hspecial

/-- A package that passes carries a manifest signed by the one trusted key that the envelope names,
and its tree consists of the files that the manifest lists. A package that was tampered with does
not pass. -/
theorem PackageVerifier.verify_sound (P : Primitives) (store : TrustStore) (path : String)
    (root : PackageRoot P.Bytes) :
    (∀ p, verify P store path root = .ok p →
      ∃ entries manifestBytes signatureBytes envelope key, root = .directory entries true ∧
        entries.lookup manifestFile = some (.leaf (.file manifestBytes true)) ∧
        PackageManifest.fromBytes P manifestBytes = .ok p.manifest ∧
        entries.lookup signatureFile = some (.leaf (.file signatureBytes true)) ∧
        SignatureEnvelope.fromBytes P signatureBytes = .ok envelope ∧
        (key ∈ store.keys ∧ key.keyId = envelope.keyId ∧ key.publisherId = p.manifest.publisherId ∧
          ∀ key' ∈ store.keys, key'.keyId = envelope.keyId → key' = key) ∧
        P.verify key.verifyingKey manifestBytes envelope.signature = true ∧
        (∀ leaf ∈ entries.leaves, leaf.isFile = true) ∧
        (entries.payload.map RegularFile.record).Perm (p.manifest.files.map PackageFile.record) ∧
        (entries.payload.map fun file => pathText file.path).Nodup) ∧
    (∀ entries readable manifestBytes manifest, root = .directory entries readable →
      entries.lookup manifestFile = some (.leaf (.file manifestBytes true)) →
      PackageManifest.fromBytes P manifestBytes = .ok manifest → entries.Tampered manifest →
      ∀ p, verify P store path root ≠ .ok p) ∧
    (∀ entries readable, root = .directory entries readable →
      (.symlink ∈ entries.leaves ∨ .special ∈ entries.leaves) →
      ∀ p, verify P store path root ≠ .ok p) ∧
    (root = .symlink → ∀ p, verify P store path root ≠ .ok p) := by
  refine ⟨fun p hp => ?_, ?_, ?_, ?_⟩
  · obtain ⟨entries, manifestBytes, signatureBytes, signature, k, rfl, hsigned, hintact, -⟩ :=
      verify_eq_ok.mp hp
    obtain ⟨key, hmem, hid, hpublisher, rfl, hunique⟩ :=
      TrustStore.verifyingKey_eq_some hsigned.trusted
    refine ⟨entries, manifestBytes, signatureBytes, ⟨p.signingKeyId, signature⟩, key, rfl,
      hsigned.manifest_found, hsigned.manifest_read, hsigned.signature_found,
      hsigned.signature_read, ⟨hmem, hid, hpublisher, hunique⟩, hsigned.verifies,
      hintact.regular, hintact.listed, ?_⟩
    have hpaths : (p.manifest.files.map fun file => file.path.value).Nodup := by
      have := p.manifest.paths_nodup.map fun _ _ => Checked.ext
      rwa [map_map] at this
    have hperm := hintact.listed.map FileRecord.path
    rw [map_map, map_map] at hperm
    exact hperm.nodup_iff.mpr hpaths
  · rintro entries readable manifestBytes manifest rfl hfound hread ht p hp
    obtain ⟨_, _, _, _, _, heq, hsigned, hintact, -⟩ := verify_eq_ok.mp hp
    cases heq
    cases hfound.symm.trans hsigned.manifest_found
    cases hread.symm.trans hsigned.manifest_read
    exact hintact.not_tampered ht
  · rintro entries readable rfl hleaf p hp
    obtain ⟨_, _, _, _, _, heq, -, hintact, -⟩ := verify_eq_ok.mp hp
    cases heq
    exact hintact.not_tampered (hleaf.elim .symlink .special)
  · rintro rfl p hp
    cases hp

def notesContent : Json := .string "<html>notes</html>"

def notesManifest : Json :=
  notesDocument [notesPage] [.object [("path", .string "index.html"),
    ("size", .number (Primitives.plain.length notesContent)),
    ("sha256", .string (String.ofList (Hex.encode (Primitives.plain.sha256 notesContent).1)))]]

/-- A signed package that lists one page, with what stands beside its documents. -/
def notesEntries (others : Listing Json) : Listing Json :=
  .leaf (.text manifestFile manifestFile_ne) (.file notesManifest true)
  (.leaf (.text signatureFile signatureFile_ne)
    (.file (.object [("formatVersion", .number 1), ("algorithm", .string "ed25519"),
      ("keyId", .string "release"), ("signature", .string (encodeBytes
        (Primitives.plain.sign (ByteVector.fill 32 0) notesManifest)))]) true)
  others)

def notesIndex : Listing Json :=
  .leaf (.text "index.html" (by decide)) (.file notesContent true) .nil

def releaseKey : TrustStore where
  keys := [⟨"release", AppManifest.notes.publisherId, ByteVector.fill 32 0⟩]
  ids_nodup := by decide

/-- The package with its page passes, the one without it does not. -/
theorem notesEntries_verified : (∃ p, PackageVerifier.verify .plain releaseKey "/notes"
        (.directory (notesEntries notesIndex) true) = .ok p ∧
      ((notesEntries notesIndex).payload.map (RegularFile.record (P := .plain))).Perm
        (p.manifest.files.map PackageFile.record)) ∧
    ∀ p, PackageVerifier.verify .plain releaseKey "/notes"
      (.directory (notesEntries .nil) true) ≠ .ok p := by
  constructor
  · obtain ⟨p, hp⟩ : ∃ p, PackageVerifier.verify .plain releaseKey "/notes"
        (.directory (notesEntries notesIndex) true) = .ok p :=
      isOk_iff.mp (by decide +kernel)
    obtain ⟨_, _, _, _, _, heq, -, -, -, -, -, -, -, hperm, -⟩ :=
      (PackageVerifier.verify_sound .plain releaseKey "/notes" _).1 p hp
    cases heq
    exact ⟨p, hp, hperm⟩
  · refine (PackageVerifier.verify_sound .plain releaseKey "/notes" _).2.1 _ _ _ _ rfl rfl rfl
      (.missing ⟨{ value := "index.html" }, Primitives.plain.length notesContent,
        Primitives.plain.sha256 notesContent⟩ ?_ ?_)
    · decide
    · intro found hfound
      cases hfound

end Rumahl
