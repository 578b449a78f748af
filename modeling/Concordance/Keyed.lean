/-!
Lists with keys: the first value for each key, and runs of equal values made one.

Main statement: `nodup_map_firstPerKey`, each key is kept at most once.
-/

namespace Concordance

/-- The first value for each key, in order; the keys in `seen` are taken already. -/
def firstPerKey {α κ : Type} [BEq κ] (key : α → κ) : List κ → List α → List α
  | _, [] => []
  | seen, a :: rest =>
    if seen.contains (key a) then firstPerKey key seen rest
    else a :: firstPerKey key (key a :: seen) rest

/-- The list with each run of equal values made one. -/
def dropRepeats {α : Type} [BEq α] : List α → List α
  | [] => []
  | [a] => [a]
  | a :: b :: rest => if a == b then dropRepeats (b :: rest) else a :: dropRepeats (b :: rest)

section Lemmas

variable {α κ : Type} [BEq κ] (key : α → κ)

theorem mem_of_mem_firstPerKey {a : α} {seen : List κ} {xs : List α}
    (h : a ∈ firstPerKey key seen xs) : a ∈ xs := by
  induction xs generalizing seen with
  | nil => simp [firstPerKey] at h
  | cons b rest ih =>
    unfold firstPerKey at h
    split at h
    · exact List.mem_cons_of_mem _ (ih h)
    · rcases List.mem_cons.1 h with rfl | h
      · exact List.mem_cons_self
      · exact List.mem_cons_of_mem _ (ih h)

theorem key_notMem_seen [LawfulBEq κ] {a : α} {seen : List κ} {xs : List α}
    (h : a ∈ firstPerKey key seen xs) : key a ∉ seen := by
  induction xs generalizing seen with
  | nil => simp [firstPerKey] at h
  | cons b rest ih =>
    unfold firstPerKey at h
    split at h
    · exact ih h
    · next hb =>
      rcases List.mem_cons.1 h with rfl | h
      · simpa using hb
      · intro ha
        exact ih h (List.mem_cons_of_mem _ ha)

/-- Each key is kept at most once. -/
theorem nodup_map_firstPerKey [LawfulBEq κ] (seen : List κ) (xs : List α) :
    ((firstPerKey key seen xs).map key).Nodup := by
  induction xs generalizing seen with
  | nil => simp [firstPerKey]
  | cons b rest ih =>
    unfold firstPerKey
    split
    · exact ih seen
    · refine List.nodup_cons.2 ⟨?_, ih _⟩
      intro hb
      obtain ⟨a, ha, hab⟩ := List.mem_map.1 hb
      exact key_notMem_seen key ha (hab ▸ List.mem_cons_self)

end Lemmas

end Concordance
