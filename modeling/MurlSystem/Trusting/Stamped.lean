import Mathlib.Algebra.BigOperators.Group.List.Basic
import MurlSystem.Bundling.Size
import MurlSystem.Naming.Items
import MurlSystem.Trusting.Signed

namespace MurlSystem

open ValidationReport

section Put

variable {k key : String} {v : Value} {members : List (String × Value)} {d : Nat}

theorem lookup_insert_other (h : key ≠ k) :
    (insertMember k v members).lookup key = members.lookup key := by
  have hne : (key == k) = false := beq_eq_false_iff_ne.mpr h
  induction members with
  | nil => simp [insertMember,List.lookup_cons,hne]
  | cons m rest ih =>
    obtain ⟨k',v'⟩ := m
    rw [insertMember]
    split
    · rw [List.lookup_cons,hne]
    · rw [List.lookup_cons,List.lookup_cons,ih]

theorem lookup_put_other (h : key ≠ k) :
    (putMember k v members).lookup key = members.lookup key := by
  have hkeep : (key != k) = true := bne_iff_ne.mpr h
  rw [putMember,lookup_insert_other h]
  exact (Serde.lookup_filter (p := (· != k)) members key).trans (if_pos hkeep)

theorem put_perm (k : String) (v : Value) (members : List (String × Value)) :
    (putMember k v members).Perm ((k,v) :: members.filter fun m => m.1 != k) :=
  (Serde.insertMember_perm k v _).trans List.perm_append_comm

theorem put_kept (h : Serde.Kept (d + 1) (.object members)) (hv : Serde.Kept d v) :
    Serde.Kept (d + 1) (.object (putMember k v members)) := by
  cases h with
  | object _ _ each ascending =>
    refine .object d _ ?_ ?_
    · intro m hm
      rcases List.mem_cons.mp ((put_perm k v members).mem_iff.mp hm) with rfl | hm
      · exact hv
      · exact each m (List.mem_filter.mp hm).1
    · refine Serde.insertMember_ascending (ascending.filter _) ?_
      intro m hm
      exact bne_iff_ne.mp (List.mem_filter.mp hm).2

theorem put_integral (h : Serde.Integral (.object members)) (hv : Serde.Integral v) :
    Serde.Integral (.object (putMember k v members)) := by
  intro n hn
  rw [Serde.numbers,Serde.numbersMembers_eq] at hn
  obtain ⟨m,hm,hn⟩ := List.mem_flatMap.mp hn
  rcases List.mem_cons.mp ((put_perm k v members).mem_iff.mp hm) with rfl | hm
  · exact hv n hn
  · refine h n ?_
    rw [Serde.numbers,Serde.numbersMembers_eq]
    exact List.mem_flatMap.mpr ⟨m,(List.mem_filter.mp hm).1,hn⟩

theorem membersSize_put (depth : Nat) : membersSize depth (putMember k v members) =
    textSize k + shownSize depth v + 2 + membersSize depth (members.filter fun m => m.1 != k) := by
  have hsum := ((put_perm k v members).map fun m =>
    textSize m.1 + shownSize depth m.2 + 2).sum_eq
  rw [membersSize_eq,membersSize_eq,hsum,List.map_cons,List.sum_cons]

end Put

section Reread

variable {crates : Crates} {f64 : List Char → Option String} {v : Value}

theorem pretty_strict (serde : Serde.Tokenises crates f64) (hkept : Serde.Kept Serde.maxNesting v)
    (hint : Serde.Integral v) :
    fromSliceStrict crates (Text.bytes (pretty 0 v ++ "\n")) = .ok v := by
  have htokens := (serde _ _).mpr
    (@pretty_tokens f64 v "\n" newline_blank (Serde.kept_token hkept) hint)
  simp only [fromSliceStrict,Fallible.bind_ok]
  exact ⟨v,htokens,Serde.noDup_self hkept⟩

variable {α : Type} {read : Value → Except String α} {missing : α} {name k : String}
  {members : List (String × Value)}

theorem requiredField_put (h : name ≠ k) :
    requiredField (fun n => (putMember k v members).lookup n) read name =
      requiredField (fun n => members.lookup n) read name := by
  rw [requiredField,requiredField,lookup_put_other h]

theorem defaultedField_put (h : name ≠ k) :
    defaultedField (fun n => (putMember k v members).lookup n) read missing name =
      defaultedField (fun n => members.lookup n) read missing name := by
  rw [defaultedField,defaultedField,lookup_put_other h]

theorem fromValue_put {doc : ManifestDoc} {block : SignatureBlock} {fields : List (String × Value)}
    (h : ManifestDoc.fromValue (.object members) = .ok doc)
    (hblock : SignatureBlock.fromValue (.object fields) = .ok block) :
    ManifestDoc.fromValue (.object (putMember "signature" (.object fields) members)) =
      .ok { doc with signature := some block } := by
  have hsignature : defaultedField
      (fun n => (putMember "signature" (.object fields) members).lookup n)
      (readOption SignatureBlock.fromValue) none "signature" = .ok (some block) := by
    rw [defaultedField,lookup_put]
    simp only [readOption,hblock]
    rfl
  simp only [ManifestDoc.fromValue,structFields,Fallible.bind_ok,Fallible.pure_ok,
    Except.ok.injEq] at h ⊢
  obtain ⟨_,rfl,version,hversion,id,hid,name,hname,desc,hdesc,ver,hver,nb,hnb,exp,hexp,rs,hrs,rels,
    hrels,_,-,rfl⟩ := h
  refine ⟨_,rfl,version,?_,id,?_,name,?_,desc,?_,ver,?_,nb,?_,exp,?_,rs,?_,rels,?_,_,hsignature,rfl⟩
  · rwa [requiredField_put (by decide)]
  · rwa [defaultedField_put (by decide)]
  · rwa [requiredField_put (by decide)]
  · rwa [defaultedField_put (by decide)]
  · rwa [defaultedField_put (by decide)]
  · rwa [defaultedField_put (by decide)]
  · rwa [defaultedField_put (by decide)]
  · rwa [requiredField_put (by decide)]
  · rwa [defaultedField_put (by decide)]

end Reread

section Shape

variable {crates : Crates} {keypair : Keypair} {known : List String}

theorem unknownKeys_errors (base message : String) (v : Value) :
    (unknownKeys known base message v).errors = [] := by
  unfold unknownKeys
  split
  · rw [concat_errors_nil]
    intro r hr
    obtain ⟨m,-,rfl⟩ := List.mem_map.mp hr
    simp
  · rfl

theorem unknownInEach_errors (base : String) (v : Option Value) :
    (unknownInEach known base v).errors = [] := by
  unfold unknownInEach
  split
  · rw [concat_errors_nil]
    intro r hr
    obtain ⟨m,-,rfl⟩ := List.mem_map.mp hr
    exact unknownKeys_errors _ _ _
  · rfl

theorem unknownMembers_errors (raw : Value) : (validateUnknownMembers raw).errors = [] := by
  unfold validateUnknownMembers
  split
  · simp [unknownKeys_errors,unknownInEach_errors]
  · rfl

theorem sha256Hex_digits {b : Bytes} {c : Char} (hc : c ∈ (sha256Hex crates b).toList) :
    ∃ n < 16, c = Nat.digitChar n := by
  rw [sha256Hex,String.toList_ofList] at hc
  obtain ⟨x,-,hx⟩ := List.mem_flatMap.mp hc
  have hlt : x.toNat < 256 := x.toNat_lt_size
  rcases List.mem_pair.mp hx with rfl | rfl
  · exact ⟨_,by omega,rfl⟩
  · exact ⟨_,by omega,rfl⟩

theorem sha256Hex_length (b : Bytes) :
    (sha256Hex crates b).toList.length = 2 * (crates.sha256 b).length := by
  rw [sha256Hex,String.toList_ofList]
  induction crates.sha256 b with
  | nil => rfl
  | cons x rest ih =>
    rw [List.flatMap_cons,List.length_append,ih]
    simp [hexByte]
    omega

theorem keyIdFor_toList (pk : Bytes) : (keyIdFor crates pk).toList =
    "ed25519:".toList ++ (sha256Hex crates pk).toList.take 16 := by
  simp [keyIdFor,toString]

theorem keyIdFor_valid {pk : Bytes} (h : (crates.sha256 pk).length = 32) :
    isValidKeyId (keyIdFor crates pk) = true := by
  have hall : ∀ n < 16, isLowerHex (Nat.digitChar n) = true := by decide
  have hdrop := Syntax.dropPrefix_iff.mpr (@keyIdFor_toList crates pk)
  rw [isValidKeyId,hdrop]
  simp only [Bool.and_eq_true,beq_iff_eq,List.all_eq_true]
  refine ⟨?_,?_⟩
  · rw [List.length_take,sha256Hex_length,h]
    rfl
  · intro c hc
    obtain ⟨n,hn,rfl⟩ := sha256Hex_digits (List.mem_of_mem_take hc)
    exact hall n hn

theorem signatureShape_valid (h : Signs crates keypair)
    (hash : (crates.sha256 keypair.publicKey).length = 32) (bytes : Bytes) :
    (validateSignatureShape crates ⟨"ed25519",keypair.keyId crates,keypair.publicKeyB64 crates,
      crates.base64Encode (keypair.sign bytes)⟩).errors = [] := by
  have hkey : decodesTo crates (keypair.publicKeyB64 crates) 32 = true := by
    rw [decodesTo,Keypair.publicKeyB64,h.decodes]
    exact beq_iff_eq.mpr h.publicKey
  have hsig : decodesTo crates (crates.base64Encode (keypair.sign bytes)) 64 = true := by
    rw [decodesTo,h.decodes]
    exact beq_iff_eq.mpr (h.signature bytes)
  have hid : isValidKeyId (keypair.keyId crates) = true := keyIdFor_valid hash
  simp [validateSignatureShape,hkey,hsig,hid]

theorem validate_put {m : Manifest} {raw : Value} {block : SignatureBlock}
    (h : (m.validate crates).errors = []) (hraw : Serde.Integral raw)
    (hblock : (validateSignatureShape crates block).errors = []) :
    ((⟨raw,{ m.doc with signature := some block }⟩ : Manifest).validate crates).errors = [] := by
  simp only [Manifest.validate,append_errors,List.append_eq_nil_iff] at h ⊢
  obtain ⟨⟨⟨⟨⟨hhead,horder⟩,hrelations⟩,-⟩,-⟩,-⟩ := h
  refine ⟨⟨⟨⟨⟨hhead,horder⟩,hrelations⟩,?_⟩,unknownMembers_errors raw⟩,?_⟩
  · rw [forOption_errors_nil]
    rintro a ha
    obtain rfl := Option.some.inj ha
    exact hblock
  · exact (Serde.walkNumbers_iff raw "").mpr hraw

end Shape

end MurlSystem
