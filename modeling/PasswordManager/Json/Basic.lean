import PasswordManager.Dictionary.Basic

/-!
This module contains JSON values and the tree that they form when they are addressed by paths.
-/

inductive Json where
  | null
  | bool (value : Bool)
  | number (value : Rat)
  | string (value : String)
  | array (values : List Json)
  | dictionary (entries : List (String × Json))

namespace Json

def asString : Json → Option String
  | .string value => some value
  | _ => none

def asDictionary : Json → Option (List (String × Json))
  | .dictionary entries => some entries
  | _ => none

def entries (self : Json) : List (String × Json) :=
  self.asDictionary.getD []

def get : List String → Json → Json
  | [], node => node
  | key :: path, node => get path ((node.entries.lookup key).getD .null)

def set : List String → Json → Json → Json
  | [], value, _ => value
  -- a leaf on the way becomes a dictionary
  | key :: path, value, node =>
    .dictionary (Dictionary.set key
      (set path value ((node.entries.lookup key).getD .null)) node.entries)

def pathPieces (path : String) : List String :=
  ((path.toList.splitOn '/').filter (fun piece => piece ≠ [])).map String.ofList

@[simp]
theorem entries_dictionary (es : List (String × Json)) : (dictionary es).entries = es := by
  rfl

theorem get_cons (key : String) (path : List String) (node : Json)
    : get (key :: path) node = get path ((node.entries.lookup key).getD .null) := by
  rfl

theorem get_set_append (path rest : List String) (value node : Json)
    : get path (set (path ++ rest) value node) = set rest value (get path node) := by
  induction path generalizing node with
  | nil => rfl
  | cons key path ih =>
    simp only [List.cons_append, set, get_cons, entries_dictionary, Dictionary.lookup_set_self,
      Option.getD_some]
    rw [ih]

theorem get_set_of_ne {key key' : String} (h : key ≠ key') (path rest rest' : List String)
    (value node : Json)
    : get (path ++ key :: rest) (set (path ++ key' :: rest') value node)
        =
      get (path ++ key :: rest) node := by
  induction path generalizing node with
  | nil =>
    simp only [List.nil_append, set, get_cons, entries_dictionary, Dictionary.lookup_set_of_ne h]
  | cons first path ih =>
    simp only [List.cons_append, set, get_cons, entries_dictionary, Dictionary.lookup_set_self,
      Option.getD_some]
    rw [ih]

theorem entries_set_singleton (key : String) (value node : Json)
    : (set [key] value node).entries = Dictionary.set key value node.entries := by
  rfl

theorem pathPieces_join {pieces : List String} (hne : pieces ≠ [])
    (hslash : ∀ piece ∈ pieces, '/' ∉ piece.toList) (hempty : ∀ piece ∈ pieces, piece ≠ "")
    : pathPieces (String.ofList (['/'].intercalate (pieces.map String.toList))) = pieces := by
  unfold pathPieces
  rw [String.toList_ofList]
  rw [List.splitOn_intercalate]
  . rw [List.filter_eq_self.mpr]
    . rw [List.map_map]
      conv_rhs => rw [← List.map_id pieces]
      apply List.map_congr_left
      intro piece _
      exact String.ofList_toList
    . intro chars hchars
      obtain ⟨piece, hpiece, rfl⟩ := List.mem_map.mp hchars
      have := hempty piece hpiece
      simpa using this
  . intro chars hchars
    obtain ⟨piece, hpiece, rfl⟩ := List.mem_map.mp hchars
    exact hslash piece hpiece
  . simpa using hne

theorem pathPieces_cons {piece : String} (hempty : piece ≠ "") (hslash : '/' ∉ piece.toList)
    (path : String) : pathPieces (piece ++ "/" ++ path) = piece :: pathPieces path := by
  have hne : piece.toList ≠ [] := by
    rw [← String.toList_empty, Ne, String.toList_inj]
    exact hempty
  have hsplit : (piece ++ "/" ++ path).toList = piece.toList ++ '/' :: path.toList := by
    simp
  unfold pathPieces
  rw [hsplit, List.splitOn_append_cons_self_of_not_mem hslash, List.filter_cons_of_pos (by simpa),
    List.map_cons, String.ofList_toList]

end Json
