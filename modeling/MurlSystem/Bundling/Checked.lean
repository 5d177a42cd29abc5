import MurlSystem.Core.Bundle
import MurlSystem.Foundation.Fallible

namespace MurlSystem

section Entries

variable {crates : Crates} {limits : Limits}

structure Carried (crates : Crates) (limits : Limits) (e : BundleEntry) (raw : Bytes)
    (manifest : Manifest) : Prop where
  decoded : crates.base64Decode e.bytes = .ok raw
  small : raw.length ≤ limits.maxManifestBytes
  intact : checkIntegrity crates raw e.integrity = .ok ()
  parsed : Manifest.fromSlice crates raw limits = .ok manifest
  valid : (manifest.validate crates).errors = []

def Canonical (identity : String) : Prop := ∃ m, Murl.parse identity = .ok m ∧ m.identity = identity

structure Checked (crates : Crates) (limits : Limits) (b : Bundle) : Prop where
  version : b.bundleVersion = MurlSystem.bundleVersion
  carries : b.entries ≠ []
  few : b.entries.length ≤ maxBundleEntries
  entries : ∀ e ∈ b.entries, ∃ raw manifest, Carried crates limits e raw manifest
  identities : ∀ identity ∈ b.entries.filterMap BundleEntry.identity, Canonical identity
  distinct : (b.entries.filterMap BundleEntry.identity).Nodup
  root : ∀ root, b.root = some root → root ∈ b.entries.filterMap BundleEntry.identity

theorem decode_ok {e : BundleEntry} {raw : Bytes} : e.decode crates limits = .ok raw ↔
    crates.base64Decode e.bytes = .ok raw ∧ raw.length ≤ limits.maxManifestBytes := by
  simp only [BundleEntry.decode,Fallible.bind_ok,Fallible.mapError_ok,Fallible.ite_ok,
    Fallible.throw_ok,false_and,exists_false,and_false,false_or,Fallible.pure_ok,not_lt]
  constructor
  · rintro ⟨b,hb,hsmall,hraw⟩
    rw [← hraw]
    exact ⟨hb,hsmall⟩
  · rintro ⟨hb,hsmall⟩
    exact ⟨raw,hb,hsmall,rfl⟩

theorem checkEntry_ok {i : Nat} {e : BundleEntry} : checkEntry crates limits i e = .ok () ↔
    ∃ raw manifest, Carried crates limits e raw manifest := by
  simp only [checkEntry,Fallible.bind_ok,decode_ok,Fallible.mapError_ok,ValidationReport.intoResult_ok]
  constructor
  · rintro ⟨raw,⟨hb,hsmall⟩,⟨⟩,hintact,manifest,hparsed,hvalid⟩
    exact ⟨raw,manifest,hb,hsmall,hintact,hparsed,hvalid⟩
  · rintro ⟨raw,manifest,hb,hsmall,hintact,hparsed,hvalid⟩
    exact ⟨raw,⟨hb,hsmall⟩,(),hintact,manifest,hparsed,hvalid⟩

theorem checkIdentity_ok {i : Nat} {seen : List String} {identity : String} :
    checkIdentity i seen identity = .ok () ↔ Canonical identity ∧ identity ∉ seen := by
  simp only [checkIdentity,Fallible.bind_ok,Fallible.mapError_ok,Fallible.ite_ok,Fallible.throw_ok,
    false_and,exists_false,and_false,false_or,Fallible.pure_ok,bne_iff_ne,ne_eq,
    Decidable.not_not,List.contains_eq_mem,decide_eq_true_eq,and_true,Canonical]
  constructor
  · rintro ⟨m,hm,hcanon,hseen⟩
    exact ⟨⟨m,hm,hcanon⟩,hseen⟩
  · rintro ⟨⟨m,hm,hcanon⟩,hseen⟩
    exact ⟨m,hm,hcanon,hseen⟩

theorem checkEntries_ok {i : Nat} {seen : List String} {es : List BundleEntry} :
    checkEntries crates limits i seen es = .ok () ↔
      (∀ e ∈ es, ∃ raw manifest, Carried crates limits e raw manifest) ∧
      (∀ identity ∈ es.filterMap BundleEntry.identity, Canonical identity ∧ identity ∉ seen) ∧
      (es.filterMap BundleEntry.identity).Nodup := by
  induction es generalizing i seen with
  | nil => simp [checkEntries]
  | cons e rest ih =>
    rw [checkEntries,Fallible.seq_ok,checkEntry_ok]
    cases hid : e.identity with
    | none =>
      simp only [ih,List.forall_mem_cons,List.filterMap_cons,hid,and_assoc]
    | some identity =>
      simp only [Fallible.seq_ok,checkIdentity_ok,ih,forall_eq_or_imp,List.filterMap_cons,hid,
        List.mem_cons,not_or,List.nodup_cons]
      constructor
      · rintro ⟨he,hhere,hrest,hids,hnodup⟩
        refine ⟨⟨he,hrest⟩,⟨hhere,?_⟩,?_,hnodup⟩
        · intro other hother
          obtain ⟨hcanon,-,hseen⟩ := hids other hother
          exact ⟨hcanon,hseen⟩
        · intro hmem
          exact (hids identity hmem).2.1 rfl
      · rintro ⟨⟨he,hrest⟩,⟨hhere,hids⟩,hnot,hnodup⟩
        refine ⟨he,hhere,hrest,?_,hnodup⟩
        intro other hother
        obtain ⟨hcanon,hseen⟩ := hids other hother
        refine ⟨hcanon,?_,hseen⟩
        rintro rfl
        exact hnot hother

theorem checkRoot_ok {b : Bundle} : checkRoot b = .ok () ↔
    ∀ root, b.root = some root → root ∈ b.entries.filterMap BundleEntry.identity := by
  unfold checkRoot
  cases b.root with
  | none => simp
  | some root => simp [List.mem_filterMap]

theorem fromSlice_iff {bytes : Bytes} {b : Bundle} : Bundle.fromSlice crates limits bytes = .ok b ↔
    bytes.length ≤ bundleCap limits ∧
      (∃ value, fromSliceStrict crates bytes = .ok value ∧ Bundle.fromValue value = .ok b) ∧
      Checked crates limits b := by
  simp only [Bundle.fromSlice,Fallible.bind_ok,Fallible.mapError_ok,Fallible.ite_ok,
    Fallible.throw_ok,false_and,exists_false,and_false,false_or,Fallible.pure_ok,bne_iff_ne,ne_eq,
    Decidable.not_not,not_lt,List.isEmpty_iff]
  constructor
  · rintro ⟨hsize,value,hvalue,b,hbundle,hversion,hne,hfew,⟨⟩,hentries,⟨⟩,hroot,rfl⟩
    obtain ⟨he,hids,hnodup⟩ := checkEntries_ok.mp hentries
    exact ⟨hsize,⟨value,hvalue,hbundle⟩,hversion,hne,hfew,he,fun s hs => (hids s hs).1,hnodup,
      checkRoot_ok.mp hroot⟩
  · rintro ⟨hsize,⟨value,hvalue,hbundle⟩,hversion,hne,hfew,he,hids,hnodup,hroot⟩
    exact ⟨hsize,value,hvalue,b,hbundle,hversion,hne,hfew,(),
      checkEntries_ok.mpr ⟨he,fun s hs => ⟨hids s hs,List.not_mem_nil⟩,hnodup⟩,(),
      checkRoot_ok.mpr hroot,rfl⟩

end Entries

end MurlSystem
