import Rumahl.Packages.ManifestValue

/-!
# Signing packages

`PackageSigner.sign` lists the payload of a tree in a manifest made from a template, writes the
manifest and a signature over it into the root, and leaves the rest of the tree alone. The trust
store of the key is written by `trustStoreJson`.

`sign_verify` states that a tree that was signed passes verification, in whichever order its
directories are read afterwards (`Listing.Same`).
-/

open List Except

namespace Rumahl

open Listing Json

/-! ## Writing documents -/

namespace Listing

/-- A file of the directory gets a new content, or the directory a new file. -/
def put (name : String) (h : name ≠ "") (content : B) : Listing B → Listing B
  | .nil => .leaf (.text name h) (.file content true) .nil
  | .leaf name' entry rest =>
    if name'.display = name then .leaf (.text name h) (.file content true) rest
    else .leaf name' entry (rest.put name h content)
  | .directory name' entries readable rest =>
    .directory name' entries readable (rest.put name h content)

/-- `write_atomic`: the content is written to a new file, which then gets the name unless it is that
of a directory. Both can fail for other reasons (`written`). -/
def writeAtomic (name : String) (h : name ≠ "") (content : B) (written : Bool)
    (entries : Listing B) : Option (Listing B) :=
  match entries.lookup name with
  | some .directory => none
  | _ => if written then some (entries.put name h content) else none

section

variable {entries : Listing B}

theorem lookup_put (hd : entries.lookup name ≠ some .directory) :
    (entries.put name h content).lookup name = some (.leaf (.file content true)) := by
  induction entries with
  | nil => simp [put, lookup, FileName.display]
  | leaf name' entry rest ih =>
    rw [put]
    split
    · simp [lookup, FileName.display]
    · next hne =>
      rw [lookup, if_neg hne] at hd
      rw [lookup, if_neg hne, ih hd]
  | directory name' entries readable rest _ ih =>
    rw [lookup] at hd
    split at hd
    · exact absurd rfl hd
    · next hne => rw [put, lookup, if_neg hne, ih hd]

theorem lookup_put_of_ne (hne : name' ≠ name) :
    (entries.put name h content).lookup name' = entries.lookup name' := by
  induction entries with
  | nil => simp [put, lookup, FileName.display, hne.symm]
  | leaf name'' entry rest ih =>
    rw [put]
    split
    · next he =>
      have hdisplay : (FileName.text name h).display ≠ name' := hne.symm
      rw [lookup, lookup, if_neg hdisplay, he, if_neg hne.symm]
    · rw [lookup, lookup, ih]
  | directory name'' entries readable rest _ ih => rw [put, lookup, lookup, ih]

theorem Legible.put (hl : entries.Legible) : (entries.put name h content).Legible := by
  induction entries with
  | nil => exact ⟨⟨name, h, rfl⟩, trivial⟩
  | leaf name' entry rest ih =>
    rw [Listing.put]
    split
    · exact ⟨⟨name, h, rfl⟩, hl.2⟩
    · exact ⟨hl.1, ih hl.2⟩
  | directory name' entries readable rest _ ih => exact ⟨hl.1, hl.2.1, hl.2.2.1, ih hl.2.2.2⟩

theorem leaves_put (hl : ∀ leaf ∈ entries.leaves, leaf.isFile = true) :
    ∀ leaf ∈ (entries.put name h content).leaves, leaf.isFile = true := by
  induction entries with
  | nil => simp [put, leaves, Leaf.isFile]
  | leaf name' entry rest ih =>
    obtain ⟨hentry, hrest⟩ := forall_mem_cons.mp hl
    rw [put]
    split
    · exact forall_mem_cons.mpr ⟨rfl, hrest⟩
    · exact forall_mem_cons.mpr ⟨hentry, ih hrest⟩
  | directory name' entries readable rest _ ih =>
    obtain ⟨hentries, hrest⟩ := forall_mem_append.mp hl
    exact forall_mem_append.mpr ⟨hentries, ih hrest⟩

theorem payload_file : (leaf name (.file content readable) rest).payload =
      (if isDocument [name] then [] else [⟨[name], content, readable⟩]) ++ rest.payload := by
  rw [payload, regularFiles, filter_cons]
  cases h : isDocument [name] <;> simp [payload, h]

theorem payload_directory : (directory name entries readable rest).payload =
      (entries.regularFiles [name]).filter (fun file => !isDocument file.path) ++ rest.payload := by
  rw [payload, regularFiles, filter_append]
  rfl

theorem payload_document (hdoc : isDocument [name] = true) :
    (leaf name entry rest).payload = rest.payload := by
  cases entry with
  | file content readable => rw [payload_file, if_pos hdoc, nil_append]
  | _ => rfl

theorem isDocument_of_display (hdoc : name.display = manifestFile ∨ name.display = signatureFile) :
    isDocument [name] = true := by
  cases name with
  | text value h => exact decide_eq_true hdoc
  | nonUtf8 bytes =>
    rcases hdoc with h | h
    · exact absurd h (by decide : "�" ≠ manifestFile)
    · exact absurd h (by decide : "�" ≠ signatureFile)

theorem payload_put (hdoc : name = manifestFile ∨ name = signatureFile) :
    (entries.put name h content).payload = entries.payload := by
  have hnew : isDocument [.text name h] = true := decide_eq_true hdoc
  induction entries with
  | nil => exact payload_document hnew
  | leaf name' entry rest ih =>
    rw [put]
    split
    · next he =>
      rw [payload_document hnew, payload_document (isDocument_of_display (he ▸ hdoc))]
    · cases entry with
      | file content' readable => rw [payload_file, payload_file, ih]
      | _ => exact ih
  | directory name' entries readable rest _ ih =>
    rw [put, payload_directory, payload_directory, ih]

end

/-! ## Reading in another order -/

/-- An entry of a directory. -/
def cons (name : FileName) : Leaf B ⊕ Listing B × Bool → Listing B → Listing B
  | .inl entry, rest => .leaf name entry rest
  | .inr (entries, readable), rest => .directory name entries readable rest

/-- The same tree, whose directories are read in another order. -/
inductive Same : Listing B → Listing B → Prop where
  | nil : Same .nil .nil
  | leaf : Same rest rest' → Same (.leaf name entry rest) (.leaf name entry rest')
  | directory : Same entries entries' → Same rest rest' →
    Same (.directory name entries readable rest) (.directory name entries' readable rest')
  | swap (name name' : FileName) (entry entry' : Leaf B ⊕ Listing B × Bool) (rest : Listing B) :
    name.display ≠ name'.display →
    Same (cons name entry (cons name' entry' rest)) (cons name' entry' (cons name entry rest))
  | trans : Same l1 l2 → Same l2 l3 → Same l1 l3

theorem Same.refl : (l : Listing B) → Same l l
  | .nil => .nil
  | .leaf _ _ rest => .leaf (.refl rest)
  | .directory _ entries _ rest => .directory (.refl entries) (.refl rest)

section

variable (name : FileName) (entry : Leaf B ⊕ Listing B × Bool) (rest : Listing B)

theorem lookup_cons : (cons name entry rest).lookup file =
      if name.display = file then some (entry.elim .leaf fun _ => .directory)
      else rest.lookup file := by
  cases entry <;> rfl

theorem legible_cons :
    (cons name entry rest).Legible ↔ (cons name entry .nil).Legible ∧ rest.Legible := by
  cases entry <;> simp [cons, Legible, and_assoc]

theorem leaves_cons :
    (cons name entry rest).leaves = (cons name entry .nil).leaves ++ rest.leaves := by
  cases entry <;> simp [cons, leaves]

theorem regularFiles_cons (parents : List FileName) : (cons name entry rest).regularFiles parents =
      (cons name entry .nil).regularFiles parents ++ rest.regularFiles parents := by
  rcases entry with entry | ⟨entries, readable⟩
  · cases entry <;> simp [cons, regularFiles]
  · simp [cons, regularFiles]

end

theorem Same.lookup (h : Same l l') (file : String) : l.lookup file = l'.lookup file := by
  induction h with
  | nil => rfl
  | leaf _ ih => rw [Listing.lookup, Listing.lookup, ih]
  | directory _ _ _ ih => rw [Listing.lookup, Listing.lookup, ih]
  | swap name name' entry entry' rest hne =>
    rw [lookup_cons, lookup_cons, lookup_cons, lookup_cons]
    split
    · next he => rw [if_neg (he ▸ hne.symm)]
    · rfl
  | trans _ _ ih1 ih2 => exact ih1.trans ih2

theorem Same.legible (h : Same l l') : l.Legible ↔ l'.Legible := by
  induction h with
  | nil => rfl
  | leaf _ ih => exact and_congr_right fun _ => ih
  | directory _ _ ih1 ih2 =>
    exact and_congr_right fun _ => and_congr_right fun _ => and_congr ih1 ih2
  | swap name name' entry entry' rest =>
    rw [legible_cons name entry, legible_cons name' entry' rest,
      legible_cons name' entry' (cons _ _ _),
      legible_cons name entry rest, and_left_comm]
  | trans _ _ ih1 ih2 => exact ih1.trans ih2

theorem Same.leaves (h : Same l l') : l.leaves.Perm l'.leaves := by
  induction h with
  | nil => exact .nil
  | leaf _ ih => exact ih.cons _
  | directory _ _ ih1 ih2 => exact ih1.append ih2
  | swap name name' entry entry' rest =>
    rw [leaves_cons name entry, leaves_cons name' entry' rest,
      leaves_cons name' entry' (cons _ _ _),
      leaves_cons name entry rest, ← append_assoc, ← append_assoc]
    exact perm_append_comm.append_right _
  | trans _ _ ih1 ih2 => exact ih1.trans ih2

theorem Same.regularFiles (h : Same l l') (parents : List FileName) :
    (l.regularFiles parents).Perm (l'.regularFiles parents) := by
  induction h generalizing parents with
  | nil => exact .nil
  | @leaf _ _ _ entry _ ih =>
    cases entry with
    | file content readable => exact (ih parents).cons _
    | _ => exact ih parents
  | directory _ _ ih1 ih2 => exact (ih1 _).append (ih2 _)
  | swap name name' entry entry' rest =>
    rw [regularFiles_cons name entry, regularFiles_cons name' entry' rest,
      regularFiles_cons name' entry' (cons _ _ _), regularFiles_cons name entry rest,
        ← append_assoc,
      ← append_assoc]
    exact perm_append_comm.append_right _
  | trans _ _ ih1 ih2 => exact (ih1 _).trans (ih2 _)

theorem Same.payload (h : Same l l') : l.payload.Perm l'.payload :=
  (h.regularFiles []).filter _

end Listing

/-! ## Signing -/

inductive PackageSignError where
  | rootIsNotDirectory
  | collection (error : PackageVerificationError)
  | fileRead (path : String)
  | fileTooLarge (path : String)
  | packageTooLarge
  | invalidManifest (error : PackageManifestError)
  | write
  | invalidKeyId

structure PackageSigner where
  keyId : String
  seed : ByteVector 32
  keyId_valid : validKeyId keyId = true

def envelopeJson (keyId : String) (signature : ByteVector 64) : Json :=
  .object [("algorithm", .string "ed25519"), ("formatVersion", .number 1),
    ("keyId", .string keyId), ("signature", .string (encodeBytes signature))]

def trustStoreJson (keyId publisherId : String) (publicKey : ByteVector 32) : Json :=
  .object [("formatVersion", .number 1),
    ("keys", .array [.object [("keyId", .string keyId),
      ("publicKey", .string (encodeBytes publicKey)), ("publisherId", .string publisherId)]])]

def sortByPath (found : List (FoundFile B)) : List (FoundFile B) :=
  found.insertionSort fun left right => left.path ≤ right.path

variable (P : Primitives)

/-- The loop over the sorted files, with the total size so far. -/
def listFiles (total : Nat) : List (FoundFile P.Bytes) → Except PackageSignError (List Json)
  | [] => .ok []
  | file :: found =>
    if maxFileBytes < P.length file.content then .error (.fileTooLarge file.path)
    else if maxPackageBytes < saturatingAdd total (P.length file.content) then
      .error .packageTooLarge
    else if !file.readable then .error (.fileRead file.path)
    else do
      let files ← listFiles (saturatingAdd total (P.length file.content)) found
      pure (fileValue file.record :: files)

def writeDocument (name : String) (h : name ≠ "") (content : P.Bytes) (written : String → Bool)
    (entries : Listing P.Bytes) : Except PackageSignError (Listing P.Bytes) :=
  match entries.writeAtomic name h content (written name) with
  | none => .error .write
  | some entries => .ok entries

namespace PackageSigner

/-- The tree after signing. Whether a document can be written is told by `written`. -/
def sign (signer : PackageSigner) (written : String → Bool) (path : String)
    (root : PackageRoot P.Bytes) (template : PackageManifest) :
    Except PackageSignError (Listing P.Bytes) :=
  match root with
  | .missing => .error .write
  | .symlink | .other => .error .rootIsNotDirectory
  | .directory entries readable => do
    let found ← (collectPayloadFiles path entries readable).mapError .collection
    let files ← listFiles P 0 (sortByPath found)
    let manifestBytes := P.writeJson (manifestValue template files)
    let _ ← (PackageManifest.fromBytes P manifestBytes).mapError .invalidManifest
    let entries ← writeDocument P manifestFile manifestFile_ne manifestBytes written entries
    writeDocument P signatureFile signatureFile_ne
      (P.writeJson (envelopeJson signer.keyId (P.sign signer.seed manifestBytes))) written entries

end PackageSigner

/-! ## The documents are read back -/

/-- What is assumed of the libraries: JSON values survive writing and reading if their fields are
sorted, they are not nested deeper than the reader goes and their numbers fit, and their text is
compact; a signature verifies under the key that belongs to the seed. -/
structure Primitives.Lawful : Prop where
  readJson_writeJson : ∀ v, v.Ordered 127 → P.readJson (P.writeJson v) = some v
  length_writeJson : ∀ v, v.Ordered 127 → P.length (P.writeJson v) ≤ v.size
  validKey_publicKey : ∀ seed, P.validKey (P.publicKey seed) = true
  verify_sign : ∀ seed bytes, P.verify (P.publicKey seed) bytes (P.sign seed bytes) = true

variable {P}

theorem stringSize_le (h : byteLength text.toList ≤ n) : stringSize text ≤ 2 + 6 * n := by
  rw [byteLength] at h
  rw [stringSize]
  omega

theorem validKeyId_length (h : validKeyId keyId = true) : byteLength keyId.toList ≤ 64 := by
  simp only [validKeyId, Bool.and_eq_true, decide_eq_true_eq] at h
  exact h.1.2

theorem encodeBytes_length (bytes : ByteVector n) :
    byteLength (encodeBytes bytes).toList ≤ 2 * n := by
  rw [encodeBytes, String.toList_ofList, byteLength]
  have h := Base64.utf8Size_encode_le bytes.1
  rwa [bytes.2] at h

theorem PublisherId.length (publisherId : PublisherId) :
    byteLength publisherId.value.toList ≤ 255 :=
  checkDotted_length publisherId.valid

theorem envelopeJson_size (signer : PackageSigner) (signature : ByteVector 64) :
    (envelopeJson signer.keyId signature).size ≤ maxSignatureBytes := by
  have hkey := stringSize_le (validKeyId_length signer.keyId_valid)
  have hsignature := stringSize_le (encodeBytes_length signature)
  have hnames : stringSize "formatVersion" + stringSize "algorithm" +
      stringSize "ed25519" + stringSize "keyId" + stringSize "signature" ≤ 1000 := by
    decide
  have hone : (toString (1 : Int)).length = 1 := by decide
  simp only [envelopeJson, size, fieldsSize, maxSignatureBytes, hone]
  omega

theorem trustStoreJson_size (signer : PackageSigner) (publisherId : PublisherId)
    (publicKey : ByteVector 32) :
    (trustStoreJson signer.keyId publisherId.value publicKey).size ≤ maxTrustStoreBytes := by
  have hkey := stringSize_le (validKeyId_length signer.keyId_valid)
  have hpublisher := stringSize_le publisherId.length
  have hpublic := stringSize_le (encodeBytes_length publicKey)
  have hnames : stringSize "formatVersion" + stringSize "keys" +
      stringSize "keyId" + stringSize "publisherId" + stringSize "publicKey" ≤
      1000 := by
    decide
  have hone : (toString (1 : Int)).length = 1 := by decide
  simp only [trustStoreJson, size, fieldsSize, elementsSize, maxTrustStoreBytes, hone]
  omega

theorem envelopeJson_ordered (keyId : String) (signature : ByteVector 64) :
    (envelopeJson keyId signature).Ordered (depth + 1) := by
  simp [envelopeJson, Ordered, cons_lt_cons_iff]

theorem trustStoreJson_ordered (keyId publisherId : String) (publicKey : ByteVector 32) :
    (trustStoreJson keyId publisherId publicKey).Ordered (depth + 3) := by
  simp [trustStoreJson, Ordered, cons_lt_cons_iff]

theorem SignatureEnvelope.fromBytes_envelope (hP : P.Lawful) (signer : PackageSigner)
    (signature : ByteVector 64) :
    fromBytes P (P.writeJson (envelopeJson signer.keyId signature)) =
      .ok ⟨signer.keyId, signature⟩ := by
  have hordered : (envelopeJson signer.keyId signature).Ordered 127 := envelopeJson_ordered _ _
  have hsize := (hP.length_writeJson _ hordered).trans (envelopeJson_size signer signature)
  have hread : RawSignature.read (envelopeJson signer.keyId signature) =
      some ⟨1, "ed25519", signer.keyId, encodeBytes signature⟩ := by
    simp only [RawSignature.read, Option.bind_eq_bind, Option.bind_eq_some_iff, field]
    exact ⟨_, rfl, _, ⟨_, rfl, asNat_natCast (by decide)⟩, _, ⟨_, rfl, rfl⟩, _, ⟨_, rfl, rfl⟩,
      _, ⟨_, rfl, rfl⟩, rfl⟩
  rw [fromBytes, if_neg (Nat.not_lt.mpr hsize), hP.readJson_writeJson _ hordered,
    Option.bind_some, hread]
  simp [fromRaw, signer.keyId_valid, decodeBytes_encodeBytes]

theorem TrustStore.fromBytes_json (hP : P.Lawful) (signer : PackageSigner)
    (publisherId : PublisherId) :
    fromBytes P (P.writeJson (trustStoreJson signer.keyId publisherId.value
        (P.publicKey signer.seed))) =
      .ok ⟨[⟨signer.keyId, publisherId, P.publicKey signer.seed⟩], nodup_singleton _⟩ := by
  have hordered : (trustStoreJson signer.keyId publisherId.value
      (P.publicKey signer.seed)).Ordered 127 := trustStoreJson_ordered _ _ _
  have hsize := (hP.length_writeJson _ hordered).trans
    (trustStoreJson_size signer publisherId (P.publicKey signer.seed))
  have hread : RawTrustStore.read (trustStoreJson signer.keyId publisherId.value
        (P.publicKey signer.seed)) =
      some ⟨1, [⟨signer.keyId, publisherId.value, encodeBytes (P.publicKey signer.seed)⟩]⟩ := by
    simp only [RawTrustStore.read, Option.bind_eq_bind, Option.bind_eq_some_iff, field]
    exact ⟨_, rfl, _, ⟨_, rfl, asNat_natCast (by decide)⟩, _, ⟨_, rfl, rfl⟩, rfl⟩
  have hkey : parseKey P ⟨signer.keyId, publisherId.value, encodeBytes (P.publicKey signer.seed)⟩ =
      .ok ⟨signer.keyId, publisherId, P.publicKey signer.seed⟩ := by
    simp [parseKey, decodeBytes_encodeBytes, hP.validKey_publicKey]
  rw [fromBytes, if_neg (Nat.not_lt.mpr hsize), hP.readJson_writeJson _ hordered,
    Option.bind_some, hread]
  simp only [fromRaw, ne_eq, not_true_eq_false, if_false, cons_ne_nil, foldlM_cons,
    addKey, signer.keyId_valid, Bool.not_true, Bool.false_eq_true, map_nil, not_mem_nil,
    dite_false]
  split
  · next h =>
    rw [hkey] at h
    cases h
  · next h =>
    rw [hkey] at h
    cases h
    rfl

/-! ## Signed packages verify -/

/-- The list has the files that were found, which are small and can be read. -/
theorem listFiles_eq_ok (h : listFiles P total found = .ok files) :
    files = (found.map FoundFile.record).map fileValue ∧ (∀ file ∈ found, file.readable = true) ∧
      ∀ file ∈ found.map FoundFile.record, file.size ≤ maxFileBytes := by
  induction found generalizing total files with
  | nil =>
    cases h
    simp
  | cons file found ih =>
    rw [listFiles] at h
    split at h
    · cases h
    split at h
    · cases h
    split at h
    · cases h
    next hsize _ hread =>
    obtain ⟨rest, hrest, h⟩ := bind_eq_ok.mp h
    obtain ⟨rfl, hreadable, hsizes⟩ := ih hrest
    cases h
    exact ⟨rfl, forall_mem_cons.mpr ⟨by simpa using hread, hreadable⟩,
      forall_mem_cons.mpr ⟨Nat.not_lt.mp hsize, hsizes⟩⟩

theorem writeDocument_eq_ok (h : writeDocument P name hne content written entries = .ok entries') :
    entries.lookup name ≠ some .directory ∧ entries' = entries.put name hne content := by
  rw [writeDocument, writeAtomic] at h
  split at h
  · cases h
  · next hwritten =>
    cases h
    split at hwritten
    · cases hwritten
    · next hd =>
      split at hwritten
      · exact ⟨hd, (Option.some.inj hwritten).symm⟩
      · cases hwritten

theorem PackageManifest.fromBytes_value (hP : P.Lawful) {files : List FileRecord}
    (hsize : ∀ file ∈ files, file.size ≤ maxFileBytes)
    (h : fromBytes P (P.writeJson (manifestValue template (files.map fileValue))) = .ok manifest) :
    manifest.formatVersion = template.formatVersion ∧
      manifest.publisherId = template.publisherId ∧ manifest.app = template.app ∧
      manifest.files.map PackageFile.record = files := by
  have hsize' : ∀ file ∈ files, file.size < 2 ^ 64 := fun file hf =>
    Nat.lt_of_le_of_lt (hsize file hf) (by decide)
  rw [fromBytes] at h
  split at h
  · cases h
  · rw [hP.readJson_writeJson _ (manifestValue_ordered template hsize'), Option.bind_some,
      RawManifest.read_value template hsize'] at h
    exact fromRaw_raw h

namespace PackageSigner

theorem sign_eq_ok {signer : PackageSigner} (hP : P.Lawful)
    (h : signer.sign P written path root template = .ok signed) :
    ∃ entries manifestBytes signatureBytes manifest, root = .directory entries true ∧
      PackageManifest.fromBytes P manifestBytes = .ok manifest ∧
      SignatureEnvelope.fromBytes P signatureBytes =
        .ok ⟨signer.keyId, P.sign signer.seed manifestBytes⟩ ∧
      entries.Intact manifest ∧ manifest.formatVersion = template.formatVersion ∧
      manifest.publisherId = template.publisherId ∧ manifest.app = template.app ∧
      entries.lookup manifestFile ≠ some .directory ∧
      entries.lookup signatureFile ≠ some .directory ∧
      signed = (entries.put manifestFile (by decide) manifestBytes).put signatureFile (by decide)
        signatureBytes := by
  unfold sign at h
  split at h
  · cases h
  · cases h
  · cases h
  next entries readable =>
  obtain ⟨found, hfound, h⟩ := bind_eq_ok.mp h
  obtain ⟨files, hfiles, h⟩ := bind_eq_ok.mp h
  obtain ⟨manifest, hmanifest, h⟩ := bind_eq_ok.mp h
  obtain ⟨entries', hwrite, h⟩ := bind_eq_ok.mp h
  obtain ⟨rfl, hlegible, hregular, -, rfl⟩ :=
    collectPayloadFiles_eq_ok.mp (mapError_eq_ok.mp hfound)
  obtain ⟨rfl, hreadable, hsize⟩ := listFiles_eq_ok hfiles
  have hmanifest := mapError_eq_ok.mp hmanifest
  obtain ⟨hversion, hpublisher, happ, hlist⟩ := PackageManifest.fromBytes_value hP hsize hmanifest
  obtain ⟨hdirectory, rfl⟩ := writeDocument_eq_ok hwrite
  obtain ⟨hdirectory', rfl⟩ := writeDocument_eq_ok h
  rw [lookup_put_of_ne (by decide)] at hdirectory'
  have hsorted : (sortByPath (entries.payload.map RegularFile.found)).Perm
      (entries.payload.map RegularFile.found) :=
    perm_insertionSort _ _
  have hintact : entries.Intact manifest := by
    refine ⟨hlegible, hregular, fun file hf => ?_, ?_⟩
    · exact hreadable file.found (hsorted.mem_iff.mpr (mem_map_of_mem hf))
    · rw [hlist]
      have hrecords := (hsorted.map (FoundFile.record)).symm
      rwa [map_map] at hrecords
  exact ⟨entries, _, _, manifest, rfl, hmanifest, SignatureEnvelope.fromBytes_envelope hP signer _,
    hintact, hversion, hpublisher, happ, hdirectory, hdirectory', rfl⟩

end PackageSigner

theorem Listing.Intact.same (h : l.Intact manifest) (hs : Same l l') : l'.Intact manifest where
  legible := hs.legible.mp h.legible
  regular leaf hleaf := h.regular leaf (hs.leaves.mem_iff.mpr hleaf)
  readable file hfile := h.readable file (hs.payload.mem_iff.mpr hfile)
  listed := (hs.payload.map RegularFile.record).symm.trans h.listed

theorem Listing.Intact.put {entries : Listing P.Bytes} (h : entries.Intact manifest)
    (hdoc : name = manifestFile ∨ name = signatureFile) :
    (entries.put name hne content).Intact manifest where
  legible := h.legible.put
  regular := leaves_put h.regular
  readable := by
    rw [payload_put hdoc]
    exact h.readable
  listed := by
    rw [payload_put hdoc]
    exact h.listed

/-- A tree that was signed passes verification with the trust store of the signer, and the manifest
that is found is the template with the payload of the tree in place of its files. -/
theorem PackageSigner.sign_verify (P : Primitives) (hP : P.Lawful) (signer : PackageSigner)
    (template : PackageManifest) (written : String → Bool) (path path' : String)
    (entries signed entries' : Listing P.Bytes) (readable : Bool)
    (hsign : signer.sign P written path (.directory entries readable) template = .ok signed)
    (hsame : signed.Same entries') :
    ∃ store p,
      TrustStore.fromBytes P (P.writeJson (trustStoreJson signer.keyId template.publisherId.value
        (P.publicKey signer.seed))) = .ok store ∧
      PackageVerifier.verify P store path' (.directory entries' true) = .ok p ∧
      p.manifest.formatVersion = template.formatVersion ∧
      p.manifest.publisherId = template.publisherId ∧ p.manifest.app = template.app ∧
      (p.manifest.files.map PackageFile.record).Perm (entries.payload.map RegularFile.record) ∧
      (p.files.map VerifiedFile.record).Perm (entries.payload.map RegularFile.record) := by
  obtain ⟨_, manifestBytes, signatureBytes, manifest, hroot, hmanifest, hsignature,
    hintact, hversion,
    hpublisher, happ, hdirectory, hdirectory', rfl⟩ := sign_eq_ok hP hsign
  cases hroot
  have hput : entries'.Intact manifest :=
    ((hintact.put (.inl rfl)).put (.inr rfl)).same hsame
  have hpayload : entries'.payload.Perm entries.payload := by
    have := hsame.payload.symm
    rwa [payload_put (.inr rfl), payload_put (.inl rfl)] at this
  -- Every record of the payload belongs to a file of the manifest.
  obtain ⟨files, hfiles⟩ : entries'.payload.map RegularFile.record ∈
      Set.range (List.map VerifiedFile.record) := by
    rw [Set.range_list_map]
    intro record hrecord
    obtain ⟨file, -, rfl⟩ := mem_map.mp (hput.listed.subset hrecord)
    exact ⟨⟨file.path, file.size, file.sha256⟩, rfl⟩
  have hsigned : entries'.SignedBy
      ⟨[⟨signer.keyId, template.publisherId, P.publicKey signer.seed⟩], nodup_singleton _⟩
      manifest signer.keyId manifestBytes signatureBytes (P.sign signer.seed manifestBytes)
      (P.publicKey signer.seed) := {
    manifest_found := by
      rw [← hsame.lookup, lookup_put_of_ne (by decide), lookup_put hdirectory]
    manifest_read := hmanifest
    signature_found := by
      rw [← hsame.lookup, lookup_put]
      rwa [lookup_put_of_ne (by decide)]
    signature_read := hsignature
    trusted := by simp [TrustStore.verifyingKey, hpublisher]
    verifies := hP.verify_sign _ _ }
  refine ⟨_, ⟨manifest, signer.keyId, files⟩, TrustStore.fromBytes_json hP signer _,
    PackageVerifier.verify_eq_ok.mpr
      ⟨entries', manifestBytes, signatureBytes, _, _, rfl, hsigned, hput, hfiles⟩,
    hversion, hpublisher, happ, hintact.listed.symm, ?_⟩
  exact hfiles ▸ hpayload.map _

theorem Primitives.plain_lawful : Primitives.plain.Lawful where
  readJson_writeJson _ h := congrArg some (sorted_eq h)
  length_writeJson _ h := (congrArg size (sorted_eq h)).le
  validKey_publicKey _ := rfl
  verify_sign _ _ := decide_eq_true rfl

def notesTemplate : PackageManifest :=
  (PackageManifest.fromBytes .plain (notesDocument [notesPage] [])).toOption.get (by decide +kernel)

def notesSigner : PackageSigner := ⟨"release", ByteVector.fill 32 0, by decide⟩

/-- A package with one page is signed and then verified. -/
theorem notes_signed : ∃ signed store p,
      notesSigner.sign .plain (fun _ => true) "/notes" (.directory notesIndex true)
        notesTemplate = .ok signed ∧
      PackageVerifier.verify .plain store "/notes" (.directory signed true) = .ok p ∧
      p.manifest.app = notesTemplate.app ∧
      (p.manifest.files.map PackageFile.record).Perm
        (notesIndex.payload.map (RegularFile.record (P := .plain))) := by
  obtain ⟨signed, hsigned⟩ : ∃ signed, notesSigner.sign .plain (fun _ => true) "/notes"
      (.directory notesIndex true) notesTemplate = .ok signed :=
    isOk_iff.mp (by decide +kernel)
  obtain ⟨store, p, -, hp, -, -, happ, hfiles, -⟩ := PackageSigner.sign_verify .plain
    Primitives.plain_lawful notesSigner notesTemplate (fun _ => true) "/notes" "/notes" notesIndex
    signed signed true hsigned (.refl signed)
  exact ⟨signed, store, p, hsigned, hp, happ, hfiles⟩

end Rumahl
