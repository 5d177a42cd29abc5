import MurlSystem.Cli.Installed

namespace MurlSystem

section Components

variable {keep : UInt8 → Bool} {s text : String} {m : Murl}

theorem percentEscape_chars {P : Char → Prop} (hkeep : ∀ b, keep b = true → P (Char.ofNat b.toNat))
    (hmark : P '%') (hhex : ∀ n < 16, P (hexDigit n)) : ∀ c ∈ (percentEscape keep s).toList, P c := by
  intro c hc
  rw [percentEscape,String.toList_ofList] at hc
  obtain ⟨b,-,hc⟩ := List.mem_flatMap.mp hc
  have hlt : b.toNat < 256 := b.toNat_lt_size
  split at hc
  · rename_i hb
    rw [List.mem_singleton.mp hc]
    exact hkeep b hb
  · simp only [List.mem_cons,List.not_mem_nil,or_false] at hc
    rcases hc with rfl | rfl | rfl
    · exact hmark
    · exact hhex _ (by omega)
    · exact hhex _ (by omega)

theorem percentEscape_ne_nil (h : Text.bytes s ≠ []) : (percentEscape keep s).toList ≠ [] := by
  obtain ⟨b,rest,hb⟩ := List.exists_cons_of_ne_nil h
  rw [percentEscape,String.toList_ofList,hb,List.flatMap_cons]
  split <;> simp

theorem sanitize_chars (seg : String) :
    ∀ c ∈ (sanitizeComponent seg).toList, c ≠ '/' ∧ c ≠ '\\' ∧ c ≠ ':' ∧ c ≠ '@' := by
  refine percentEscape_chars ?_ (by decide) ?_
  · intro b hb
    refine ⟨?_,?_,?_,?_⟩ <;>
    · intro he
      rw [isStoreChar,he] at hb
      exact absurd hb (by decide)
  · intro n hn
    have hall : ∀ n ∈ List.range 16,
        hexDigit n ≠ '/' ∧ hexDigit n ≠ '\\' ∧ hexDigit n ≠ ':' ∧ hexDigit n ≠ '@' := by decide
    exact hall n (List.mem_range.mpr hn)

theorem parsed_segments (h : Murl.parse text = .ok m) : ∀ seg ∈ m.name, Text.bytes seg ≠ [] := by
  obtain ⟨p,hp⟩ := Syntax.parse_ok.mp h
  intro seg hseg
  obtain ⟨raw,-,hread⟩ := Fallible.forall₂_mem hp.reads.name.flip seg hseg
  exact Syntax.decodes_ne_nil hread.decoded hread.some

theorem parsed_version_chars (h : Murl.parse text = .ok m) :
    ∀ w ∈ Syntax.printedVersion m.version, ∀ c ∈ w, Syntax.isVersionChar c = true := by
  obtain ⟨p,hp⟩ := Syntax.parse_ok.mp h
  have hread := Syntax.version_reprints hp.reads.version
  intro w hw
  rw [Option.mem_def.mp hw] at hread
  exact Syntax.version_chars (Syntax.version_derives hread)

theorem parsed_key (h : Murl.parse text = .ok m) :
    ∀ comp ∈ m.storeKey id, '/' ∉ comp.toList ∧ comp.toList ≠ [] := by
  have hversion : ∀ w ∈ Syntax.printedVersion m.version, '/' ∉ w := by
    intro w hw hmem
    exact absurd (parsed_version_chars h w hw '/' hmem) (by decide)
  have hfree : ∀ seg : String, '/' ∉ (sanitizeComponent seg).toList := fun seg hmem =>
    (sanitize_chars seg '/' hmem).1 rfl
  rw [Murl.storeKey,List.map_id]
  intro comp hcomp
  rcases List.mem_append.mp hcomp with hcomp | hcomp
  · obtain ⟨seg,hseg,rfl⟩ := List.mem_map.mp hcomp
    exact ⟨hfree seg,
      percentEscape_ne_nil (parsed_segments h seg (List.mem_of_mem_dropLast hseg))⟩
  · obtain rfl := List.mem_singleton.mp hcomp
    have htail : '/' ∉ ".murl.json".toList ∧ ".murl.json".toList ≠ [] := by decide
    simp only [String.toList_append]
    refine ⟨?_,List.append_ne_nil_of_right_ne_nil _ htail.2⟩
    refine List.not_mem_append (List.not_mem_append (hfree _) ?_) htail.1
    cases hv : m.version with
    | latest => simp
    | pinned v =>
      rw [hv] at hversion
      have hfree := hversion _ rfl
      simpa using hfree

end Components

section Directory

-- What a local store reads is what the directory under it holds, where `fold` is how the file
-- system compares names.
def Backs (fold : String → String) (store : Store) (names : LocalStore) : Prop :=
  ∀ s m b, Murl.parse s = .ok m → (names.files (names.manifestPath m) = .bytes b ↔
    FileTree.stored store (m.storeKey fold) = some b)

def directory (root : String) (fold : String → String) (store : Store) : LocalStore where
  os := .posix
  root := root
  files path :=
    match path.toList.dropPrefix? root.toList with
    | none => .notFound
    | some rest =>
      match FileTree.stored store
        ((rest.splitOn '/').tail.map fun comp => fold (String.ofList comp)) with
      | some b => .bytes b
      | none => .notFound

variable {root text : String} {fold : String → String} {store : Store} {m : Murl}

theorem directory_path (hroot : Path.Closed root.toList) (h : Murl.parse text = .ok m) :
    ((directory root fold store).manifestPath m).toList =
      root.toList ++ ((m.storeKey id).map fun comp => '/' :: comp.toList).flatten := by
  have hcomps : ∀ p ∈ (m.storeKey id).map String.toList, '/' ∉ p ∧ p ≠ [] := by
    intro p hp
    obtain ⟨comp,hcomp,rfl⟩ := List.mem_map.mp hp
    exact parsed_key h comp hcomp
  have hpush := Path.foldl_push_posix hroot hcomps
  rw [List.foldl_map,List.map_map] at hpush
  rw [manifestPath_key,String.toList_ofList]
  exact hpush

theorem directory_backs (hroot : Path.Closed root.toList) :
    Backs fold store (directory root fold store) := by
  intro text m b h
  have hpath : ((directory root fold store).manifestPath m).toList =
      root.toList ++ ((m.storeKey id).map fun comp => '/' :: comp.toList).flatten :=
    directory_path hroot h
  have hfree : ∀ p ∈ (m.storeKey id).map String.toList, '/' ∉ p := by
    intro p hp
    obtain ⟨comp,hcomp,rfl⟩ := List.mem_map.mp hp
    exact (parsed_key h comp hcomp).1
  have hsplit := Syntax.splitOn_joined (List.not_mem_nil (a := '/')) hfree
  rw [List.nil_append,List.map_map] at hsplit
  have hsplit : (((m.storeKey id).map fun comp => '/' :: comp.toList).flatten).splitOn '/' =
      [] :: (m.storeKey id).map String.toList := hsplit
  have hkey : ((m.storeKey id).map String.toList).map (fun comp => fold (String.ofList comp)) =
      m.storeKey fold := by
    rw [List.map_map]
    have hfold : (fun comp => fold (String.ofList comp)) ∘ String.toList = fold := by
      funext comp
      exact congrArg fold String.ofList_toList
    rw [hfold]
    exact List.map_map
  change (match (((directory root fold store).manifestPath m).toList.dropPrefix? root.toList) with
    | none => FileRead.notFound
    | some rest =>
      match FileTree.stored store ((rest.splitOn '/').tail.map fun comp => fold (String.ofList comp)) with
      | some b => .bytes b
      | none => .notFound) = .bytes b ↔ _
  rw [Syntax.dropPrefix_iff.mpr hpath]
  dsimp only
  rw [hsplit,List.tail_cons,hkey]
  cases FileTree.stored store (m.storeKey fold) <;> simp

end Directory

end MurlSystem
