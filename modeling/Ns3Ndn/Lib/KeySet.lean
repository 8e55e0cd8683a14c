import Ns3Ndn.Lib.OrdMap

/-!
# Sets that are ordered by keys

Items are inserted into a set that compares their keys. An item with the key of an earlier one is left out.
-/

namespace OrdLib.KeySet

variable {κ α : Type} [LinearOrder κ] (key : α → κ)

def ofList (l : List α) : OrdMap κ α := l.foldl (fun m a => m.insertNew (key a) a) .empty

/-- The items in order. -/
def values (m : OrdMap κ α) : List α := m.toList.map Prod.snd

variable {key} {l : List α} {a : α}

theorem find?_ofList (l : List α) (k : κ) : (ofList key l).find? k = l.find? fun a => key a = k := by
  induction l using List.reverseRecOn with
  | nil => rfl
  | append_singleton l a ih =>
    unfold ofList at ih ⊢
    rw [List.foldl_append, List.foldl_cons, List.foldl_nil, OrdMap.find?_insertNew, ih, List.find?_append]
    by_cases hk : key a = k
    · subst hk
      cases List.find? (fun b => key b = key a) l <;> simp
    · cases List.find? (fun b => key b = k) l <;> simp [hk]

theorem mem_values : a ∈ values (ofList key l) ↔ l.find? (fun b => key b = key a) = some a := by
  unfold values
  constructor
  · intro h
    obtain ⟨⟨k, b⟩, hmem, rfl⟩ := List.mem_map.1 h
    have hfind := (OrdMap.mem_toList _).1 hmem
    rw [find?_ofList] at hfind
    have hk : key b = k := by simpa using List.find?_some hfind
    rw [hk]
    exact hfind
  · intro h
    rw [← find?_ofList] at h
    exact List.mem_map.2 ⟨_, (OrdMap.mem_toList _).2 h, rfl⟩

theorem mem_of_mem_values (h : a ∈ values (ofList key l)) : a ∈ l := List.mem_of_find?_eq_some (mem_values.1 h)

theorem pairwise_values (l : List α) : (values (ofList key l)).Pairwise fun a b => key a < key b := by
  have hkey : ∀ p ∈ (ofList key l).toList, p.1 = key p.2 := by
    rintro ⟨k, a⟩ hmem
    have hfind := (OrdMap.mem_toList _).1 hmem
    rw [find?_ofList] at hfind
    simpa [eq_comm] using List.find?_some hfind
  refine List.pairwise_map.2 ((ofList key l).sorted.imp_of_mem ?_)
  intro p p' hp hp' hlt
  rwa [hkey p hp, hkey p' hp'] at hlt

theorem nodup_values (l : List α) : (values (ofList key l)).Nodup :=
  (pairwise_values l).imp fun hlt heq => hlt.ne (congrArg key heq)

theorem values_perm (hl : (l.map key).Nodup) : (values (ofList key l)).Perm l := by
  refine (List.perm_ext_iff_of_nodup (nodup_values l) hl.of_map).2 fun a => ?_
  refine ⟨mem_of_mem_values, fun ha => mem_values.2 ?_⟩
  obtain ⟨b, hb⟩ : ∃ b, l.find? (fun b => key b = key a) = some b := by
    rw [← Option.isSome_iff_exists, List.find?_isSome]
    exact ⟨a, ha, by simp⟩
  have hkey : key b = key a := by simpa using List.find?_some hb
  rw [hb, List.inj_on_of_nodup_map hl (List.mem_of_find?_eq_some hb) ha hkey]

theorem exists_not_mem_values (hl : l.Nodup) (hkeys : ¬ (l.map key).Nodup) : ∃ a ∈ l, a ∉ values (ofList key l) := by
  by_contra hall
  push Not at hall
  refine hkeys (hl.map_on fun a ha b hb hkey => ?_)
  have hfind := mem_values.1 (hall a ha)
  rw [hkey, mem_values.1 (hall b hb)] at hfind
  exact (Option.some.inj hfind).symm

end OrdLib.KeySet
