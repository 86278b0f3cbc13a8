import RPCortex.Lib.Text

/-! The comma lists of `novacore.cpp`: membership scans the text, an addition appends to it and a removal rebuilds it
through the splitter with its slots.  A string is the bytes in front of its NUL. -/

namespace RPCortex.Nova

abbrev space : UInt8 := 0x20

abbrev comma : UInt8 := 0x2C

/-- `NOVA_VAL_MAX`. -/
abbrev novaValMax : Nat := 97

/-! ### The functions -/

/-- `copy` to a buffer of `cap` bytes. -/
def copy (cap : Nat) (src : List UInt8) : List UInt8 := src.take (cap - 1)

/-- The fields of `split_csv` before their spaces at the end are taken off, `max` of them at most. -/
def splitFrom : (max : Nat) → List UInt8 → List (List UInt8)
  | 0, _ => []
  | max + 1, p =>
    if p = [] then []
    else
      let p := p.dropWhile (· = space)
      p.takeWhile (· ≠ comma) ::
        (if p.dropWhile (· ≠ comma) = [] then [] else splitFrom max (p.dropWhile (· ≠ comma)).tail)

/-- `split_csv`. -/
def splitCsv (max : Nat) (editable : List UInt8) : List (List UInt8) :=
  (splitFrom max editable).map (List.rdropWhile (· = space))

/-- The loop of `csv_has`.  Every pass but the last takes a byte at least. -/
def csvHasFrom (needle : List UInt8) : (fuel : Nat) → List UInt8 → Bool
  | 0, _ => false
  | fuel + 1, p =>
    if p = [] then false
    else
      let p := p.dropWhile fun c => c = space || c = comma
      if (p.takeWhile (· ≠ comma)).rdropWhile (· = space) = needle then true
      else csvHasFrom needle fuel (p.dropWhile (· ≠ comma))

/-- `csv_has`. -/
def csvHas (csv needle : List UInt8) : Bool := needle ≠ [] && csvHasFrom needle (csv.length + 1) csv

/-- `csv_add`: what it returns, and the list. -/
def csvAdd (cap : Nat) (csv field : List UInt8) : Bool × List UInt8 :=
  if field = [] then (false, csv)
  else if csvHas csv field then (false, csv)
  else if csv.length + (field.length + if csv = [] then 0 else 1) + 1 > cap then (false, csv)
  else
    let front := if csv = [] then [] else csv ++ [comma]
    (true, front ++ copy (cap - front.length) field)

/-- One field of the list that `csv_remove` rebuilds. -/
def keepField (cap : Nat) (field csv f : List UInt8) : List UInt8 :=
  if f = [] ∨ f = field then csv
  else
    let csv := if csv ≠ [] ∧ csv.length + 1 < cap then csv ++ [comma] else csv
    csv ++ copy (cap - csv.length) f

/-- `csv_remove`: what it returns, and the list. -/
def csvRemove (cap : Nat) (csv field : List UInt8) : Bool × List UInt8 :=
  if cap = 0 ∨ field = [] ∨ !csvHas csv field then (false, csv)
  else if cap > novaValMax * 2 then (false, csv)
  else (true, (splitCsv 24 (copy (novaValMax * 2) csv)).foldl (keepField cap field) [])

/-! ### Fields -/

/-- A text without the spaces around it. -/
def trim (s : List UInt8) : List UInt8 := (s.dropWhile (· = space)).rdropWhile (· = space)

/-- The fields of a list: what stands between its commas, without the spaces around it, where that is something. -/
def fieldsOf (csv : List UInt8) : List (List UInt8) := ((csv.splitOn comma).map trim).filter (· ≠ [])

/-- A field that can be asked for: it is not empty, and has no commas and no spaces around it. -/
structure Proper (f : List UInt8) : Prop where
  some : f ≠ []
  noComma : comma ∉ f
  trimmed : trim f = f

variable {p s f rest : List UInt8} {fs : List (List UInt8)} {n : Nat}

theorem trim_nil : trim [] = [] := rfl

theorem trim_space : trim (space :: s) = trim s := rfl

theorem dropWhile_comma : p.dropWhile (· ≠ comma) = [] ∨ ∃ rest, p.dropWhile (· ≠ comma) = comma :: rest := by
  cases h : p.dropWhile (· ≠ comma) with
  | nil => exact .inl rfl
  | cons c rest =>
    have stop := List.head_dropWhile_not (· ≠ comma) (l := p) (by rw [h]; exact List.cons_ne_nil _ _)
    simp only [h, List.head_cons, decide_eq_false_iff_not, not_not] at stop
    exact .inr ⟨rest, by rw [stop]⟩

theorem noComma_takeWhile : comma ∉ p.takeWhile (· ≠ comma) := by
  intro mem
  have := List.mem_takeWhile_imp mem
  simp at this

theorem fieldsOf_single (none_ : comma ∉ s) : fieldsOf s = if trim s = [] then [] else [trim s] := by
  rw [fieldsOf, List.splitOn_eq_singleton none_, List.map_singleton, List.filter_singleton]
  by_cases h : trim s = [] <;> simp [h]

theorem fieldsOf_append : fieldsOf (s ++ comma :: rest) = fieldsOf s ++ fieldsOf rest := by
  rw [fieldsOf, List.splitOn_append_cons_self, List.map_append, List.filter_append]
  rfl

theorem fieldsOf_nil : fieldsOf [] = [] := rfl

theorem fieldsOf_comma : fieldsOf (comma :: p) = fieldsOf p := fieldsOf_append (s := [])

/-- A list is its first field and what stands behind the comma. -/
theorem fieldsOf_cut : fieldsOf p =
    (if trim (p.takeWhile (· ≠ comma)) = [] then [] else [trim (p.takeWhile (· ≠ comma))]) ++
      fieldsOf (p.dropWhile (· ≠ comma)) := by
  have whole : fieldsOf p = fieldsOf (p.takeWhile (· ≠ comma) ++ p.dropWhile (· ≠ comma)) := by
    rw [List.takeWhile_append_dropWhile]
  rw [whole, ← fieldsOf_single noComma_takeWhile]
  rcases @dropWhile_comma p with none_ | ⟨rest, more⟩
  · rw [none_, List.append_nil, fieldsOf_nil, List.append_nil]
  · rw [more, fieldsOf_append, fieldsOf_comma]

theorem fieldsOf_space : fieldsOf (space :: p) = fieldsOf p := by
  rw [fieldsOf_cut, @fieldsOf_cut p, List.takeWhile_cons_of_pos (by decide), List.dropWhile_cons_of_pos (by decide),
    trim_space]

theorem fieldsOf_skip : fieldsOf (p.dropWhile fun c => c = space || c = comma) = fieldsOf p := by
  induction p with
  | nil => rfl
  | cons c p ih =>
    by_cases h : c = space
    · rw [List.dropWhile_cons_of_pos (by rw [h]; rfl), ih, h, fieldsOf_space]
    by_cases h' : c = comma
    · rw [List.dropWhile_cons_of_pos (by rw [h']; rfl), ih, h', fieldsOf_comma]
    · rw [List.dropWhile_cons_of_neg (by simp [h, h'])]

theorem fieldsOf_proper (proper : Proper f) : fieldsOf f = [f] := by
  rw [fieldsOf_single proper.noComma, proper.trimmed, if_neg proper.some]

/-! ### Membership -/

/-- A text whose first byte is no space has none to drop there. -/
theorem trim_takeWhile (first : p.head? ≠ some space) :
    trim (p.takeWhile (· ≠ comma)) = (p.takeWhile (· ≠ comma)).rdropWhile (· = space) := by
  rw [trim]
  cases p with
  | nil => rfl
  | cons c p =>
    have other : ¬c = space := fun eq => first (by rw [eq]; rfl)
    by_cases h : c = comma
    · rw [List.takeWhile_cons_of_neg (by simp [h])]
      rfl
    · rw [List.takeWhile_cons_of_pos (by simp [h]), List.dropWhile_cons_of_neg (by simp [other])]

theorem csvHasFrom_iff {needle : List UInt8} (some_ : needle ≠ []) {fuel : Nat} (enough : p.length < fuel) :
    csvHasFrom needle fuel p = true ↔ needle ∈ fieldsOf p := by
  induction fuel generalizing p with
  | zero => exact absurd enough (Nat.not_lt_zero _)
  | succ fuel ih =>
    unfold csvHasFrom
    split
    · rename_i none_
      rw [none_, fieldsOf_nil]
      simp
    rename_i more
    dsimp only
    have shorter : (p.dropWhile fun c => c = space || c = comma).length ≤ p.length := List.length_dropWhile_le _ _
    have first (c : UInt8) (rest : List UInt8) (eq : (p.dropWhile fun c => c = space || c = comma) = c :: rest) :
        c ≠ space ∧ c ≠ comma := by
      have stop := List.head_dropWhile_not (fun c => decide (c = space) || decide (c = comma)) (l := p)
        (by rw [eq]; exact List.cons_ne_nil _ _)
      simp only [eq, List.head_cons, Bool.or_eq_false_iff, decide_eq_false_iff_not] at stop
      exact stop
    rw [← @fieldsOf_skip p]
    generalize (p.dropWhile fun c => c = space || c = comma) = q at shorter first ⊢
    have trimmed : trim (q.takeWhile (· ≠ comma)) = (q.takeWhile (· ≠ comma)).rdropWhile (· = space) := by
      apply trim_takeWhile
      intro head
      obtain ⟨rest, eq⟩ := List.head?_eq_some_iff.mp head
      exact (first _ rest eq).1 rfl
    have less : (q.dropWhile (· ≠ comma)).length < fuel := by
      cases q with
      | nil =>
        have := List.length_pos_of_ne_nil more
        rw [List.dropWhile_nil, List.length_nil]
        omega
      | cons c rest =>
        rw [List.dropWhile_cons_of_pos (by simp [(first c rest rfl).2])]
        have := List.length_dropWhile_le (fun c => decide (c ≠ comma)) rest
        rw [List.length_cons] at shorter
        omega
    rw [fieldsOf_cut, trimmed]
    split
    · rename_i found
      rw [found, if_neg some_]
      simp
    · rename_i other
      rw [ih less, List.mem_append]
      constructor
      · exact .inr
      · rintro (here | later)
        · split at here
          · cases here
          · exact absurd (List.mem_singleton.mp here).symm other
        · exact later

/-- `csv_has` reports the fields of the list. -/
theorem csvHas_iff {needle : List UInt8} : csvHas p needle = true ↔ needle ∈ fieldsOf p := by
  unfold csvHas
  by_cases some_ : needle = []
  · subst some_
    simp [fieldsOf]
  · simp only [some_, ne_eq, not_false_eq_true, decide_true, Bool.true_and]
    exact csvHasFrom_iff some_ (Nat.lt_succ_self _)

/-! ### The splitter -/

theorem cut_dropSpaces : (p.dropWhile (· = space)).takeWhile (· ≠ comma) = (p.takeWhile (· ≠ comma)).dropWhile (· = space) ∧
    (p.dropWhile (· = space)).dropWhile (· ≠ comma) = p.dropWhile (· ≠ comma) := by
  induction p with
  | nil => exact ⟨rfl, rfl⟩
  | cons c p ih =>
    by_cases h : c = space
    · subst h
      rw [List.dropWhile_cons_of_pos (by decide), List.takeWhile_cons_of_pos (by decide),
        List.dropWhile_cons_of_pos (by decide), List.dropWhile_cons_of_pos (by decide)]
      exact ih
    · rw [List.dropWhile_cons_of_neg (by simp [h])]
      refine ⟨?_, rfl⟩
      by_cases h' : c = comma
      · rw [List.takeWhile_cons_of_neg (by simp [h'])]
        rfl
      · rw [List.takeWhile_cons_of_pos (by simp [h']), List.dropWhile_cons_of_neg (by simp [h])]

theorem splitFrom_succ (some_ : p ≠ []) : splitFrom (n + 1) p =
    (p.takeWhile (· ≠ comma)).dropWhile (· = space) ::
      (if p.dropWhile (· ≠ comma) = [] then [] else splitFrom n (p.dropWhile (· ≠ comma)).tail) := by
  rw [splitFrom, if_neg some_]
  dsimp only
  rw [cut_dropSpaces.1, cut_dropSpaces.2]

/-- The splitter's fields are those in front of comma number `n`. -/
theorem splitCsv_fields : (splitCsv n p).filter (· ≠ []) = (((p.splitOn comma).take n).map trim).filter (· ≠ []) := by
  unfold splitCsv
  induction n generalizing p with
  | zero => rfl
  | succ n ih =>
    by_cases some_ : p = []
    · rw [some_, splitFrom, if_pos rfl]
      simp [trim_nil]
    rw [splitFrom_succ some_, Lib.splitOn_cut, List.drop_one, List.take_succ_cons, List.map_cons, List.map_cons,
      List.filter_cons, List.filter_cons]
    have rest : ((if p.dropWhile (· ≠ comma) = [] then [] else splitFrom n (p.dropWhile (· ≠ comma)).tail).map
        (List.rdropWhile (· = space))).filter (· ≠ []) = (((if p.dropWhile (· ≠ comma) = [] then []
          else (p.dropWhile (· ≠ comma)).tail.splitOn comma).take n).map trim).filter (· ≠ []) := by
      split
      · rw [List.take_nil]
        rfl
      · exact ih
    rw [rest]
    rfl

theorem mem_splitFrom (mem : s ∈ splitFrom n p) : comma ∉ s ∧ s.head? ≠ some space := by
  induction n generalizing p with
  | zero => cases mem
  | succ n ih =>
    by_cases some_ : p = []
    · rw [some_, splitFrom, if_pos rfl] at mem
      cases mem
    rw [splitFrom_succ some_] at mem
    rcases List.mem_cons.mp mem with rfl | later
    · refine ⟨fun has => noComma_takeWhile (List.dropWhile_sublist _ |>.subset has), fun first => ?_⟩
      obtain ⟨rest, eq⟩ := List.head?_eq_some_iff.mp first
      have stop := List.head_dropWhile_not (· = space) (l := p.takeWhile (· ≠ comma))
        (by rw [eq]; exact List.cons_ne_nil _ _)
      simp only [eq, List.head_cons, decide_true, Bool.true_eq_false] at stop
    · split at later
      · cases later
      · exact ih later

theorem mem_splitCsv (mem : s ∈ (splitCsv n p).filter (· ≠ [])) : Proper s := by
  obtain ⟨mem, some_⟩ := List.mem_filter.mp mem
  unfold splitCsv at mem
  obtain ⟨t, inside, rfl⟩ := List.mem_map.mp mem
  obtain ⟨noComma, first⟩ := mem_splitFrom inside
  have front : t.rdropWhile (· = space) <+: t := List.rdropWhile_prefix _ _
  refine ⟨of_decide_eq_true some_, fun has => noComma (front.subset has), ?_⟩
  rw [trim]
  cases h : t.rdropWhile (· = space) with
  | nil => rfl
  | cons c rest =>
    have other : ¬c = space := by
      intro eq
      rw [h] at front
      obtain ⟨more, whole⟩ := front
      rw [← whole, eq] at first
      exact first rfl
    rw [List.dropWhile_cons_of_neg (by simp [other]), ← h, List.rdropWhile_idempotent]

/-- The bytes that a list takes, with one more for each field. -/
def weight (fs : List (List UInt8)) : Nat := (fs.map fun f => f.length + 1).sum

theorem weight_cons : weight (f :: fs) = f.length + 1 + weight fs := by
  rw [weight, List.map_cons, List.sum_cons, weight]

theorem weight_splitCsv : weight (splitCsv n p) ≤ p.length + 1 := by
  unfold splitCsv
  induction n generalizing p with
  | zero => exact Nat.zero_le _
  | succ n ih =>
    by_cases some_ : p = []
    · rw [some_]
      exact Nat.zero_le _
    have front : (((p.takeWhile (· ≠ comma)).dropWhile (· = space)).rdropWhile (· = space)).length ≤
        (p.takeWhile (· ≠ comma)).length :=
      (List.rdropWhile_prefix (· = space) ((p.takeWhile (· ≠ comma)).dropWhile (· = space))).length_le.trans
        (List.length_dropWhile_le _ _)
    have whole : (p.takeWhile (· ≠ comma)).length + (p.dropWhile (· ≠ comma)).length = p.length := by
      rw [← List.length_append, List.takeWhile_append_dropWhile]
    rw [splitFrom_succ some_, List.map_cons, weight_cons]
    split
    · rw [List.map_nil]
      have : weight [] = 0 := rfl
      omega
    · rename_i more
      have rest := @ih (p.dropWhile (· ≠ comma)).tail
      rw [List.length_tail] at rest
      have := List.length_pos_of_ne_nil more
      omega

/-! ### Removal -/

/-- The bytes that a rebuilt list takes, with the comma in front of the next field. -/
def used (csv : List UInt8) : Nat := if csv = [] then 0 else csv.length + 1

variable {cap : Nat} {csv acc field : List UInt8}

theorem keepField_none (skipped : f = [] ∨ f = field) : keepField cap field acc f = acc := if_pos skipped

theorem keepField_some (kept : ¬(f = [] ∨ f = field)) (fits : used acc + (f.length + 1) ≤ cap) :
    keepField cap field acc f = (if acc = [] then [] else acc ++ [comma]) ++ f := by
  have long : f.length ≠ 0 := fun none_ => kept (.inl (List.length_eq_zero_iff.mp none_))
  rw [keepField, if_neg kept]
  unfold used at fits
  by_cases h : acc = []
  · rw [if_pos h] at fits
    simp only [h, ne_eq, not_true_eq_false, false_and, if_false, if_true, List.length_nil, List.nil_append, copy]
    exact List.take_of_length_le (by omega)
  · rw [if_neg h] at fits
    have room : acc ≠ [] ∧ acc.length + 1 < cap := ⟨h, by omega⟩
    simp only [if_pos room, if_neg h, copy, List.length_append, List.length_singleton]
    rw [List.take_of_length_le (by omega)]

theorem used_joined (some_ : f ≠ []) :
    used ((if acc = [] then [] else acc ++ [comma]) ++ f) = used acc + (f.length + 1) := by
  unfold used
  by_cases h : acc = []
  · simp [h, some_]
  · simp [h]
    omega

theorem fieldsOf_joined (proper : Proper f) :
    fieldsOf ((if acc = [] then [] else acc ++ [comma]) ++ f) = fieldsOf acc ++ [f] := by
  by_cases h : acc = []
  · rw [if_pos h, List.nil_append, fieldsOf_proper proper, h, fieldsOf_nil, List.nil_append]
  · rw [if_neg h, List.append_assoc, List.singleton_append, fieldsOf_append, fieldsOf_proper proper]

/-- Every field that is kept is put behind the others: the room suffices. -/
theorem foldl_keepField (proper : ∀ f ∈ fs.filter (· ≠ []), Proper f) (fits : used acc + weight fs ≤ cap) :
    fieldsOf (fs.foldl (keepField cap field) acc) =
      fieldsOf acc ++ (fs.filter (· ≠ [])).filter (· ≠ field) := by
  induction fs generalizing acc with
  | nil => rw [List.foldl_nil, List.filter_nil, List.filter_nil, List.append_nil]
  | cons f fs ih =>
    rw [weight_cons] at fits
    have later : ∀ g ∈ fs.filter (· ≠ []), Proper g := fun g mem =>
      proper g (List.mem_filter.mpr ⟨List.mem_cons_of_mem _ (List.mem_filter.mp mem).1, (List.mem_filter.mp mem).2⟩)
    rw [List.foldl_cons]
    by_cases skipped : f = [] ∨ f = field
    · rw [keepField_none skipped, ih later (by omega)]
      rcases skipped with rfl | rfl
      · simp
      · by_cases none_ : f = [] <;> simp [none_]
    · obtain ⟨some_, other⟩ := not_or.mp skipped
      have here : Proper f :=
        proper f (List.mem_filter.mpr ⟨List.mem_cons_self, decide_eq_true some_⟩)
      have fits' : used acc + (f.length + 1) ≤ cap := by omega
      rw [keepField_some skipped fits', ih later (by rw [used_joined some_]; omega), fieldsOf_joined here]
      simp [some_, other]

/-- What a removal leaves: of the fields in the first 24 slots, those that are not the one. -/
theorem fieldsOf_csvRemove (listed : csvHas csv field = true) (some_ : field ≠ []) (small : cap ≤ novaValMax * 2)
    (holds : csv.length < cap) : fieldsOf (csvRemove cap csv field).2 =
      ((((csv.splitOn comma).take 24).map trim).filter (· ≠ [])).filter (· ≠ field) := by
  have go : ¬(cap = 0 ∨ field = [] ∨ (!csvHas csv field) = true) := by
    rw [listed]
    simp only [some_, Bool.not_true, Bool.false_eq_true, or_self, or_false]
    omega
  have whole : copy (novaValMax * 2) csv = csv := List.take_of_length_le (by omega)
  have fits : used [] + weight (splitCsv 24 csv) ≤ cap := by
    have light := @weight_splitCsv csv 24
    have : used [] = 0 := rfl
    omega
  rw [csvRemove, if_neg go, if_neg (by omega), whole, foldl_keepField (fun f mem => mem_splitCsv mem) fits,
    splitCsv_fields, fieldsOf_nil, List.nil_append]

theorem csvRemove_false (off : (csvRemove cap csv field).1 = false) : (csvRemove cap csv field).2 = csv := by
  unfold csvRemove at off ⊢
  split
  · rfl
  split
  · rfl
  · rename_i h h'
    rw [if_neg h, if_neg h'] at off
    cases off

/-! ### Addition -/

theorem csvAdd_iff (some_ : field ≠ []) : (csvAdd cap csv field).1 = true ↔
    csvHas csv field = false ∧ csv.length + (field.length + if csv = [] then 0 else 1) < cap := by
  rw [csvAdd, if_neg some_]
  by_cases listed : csvHas csv field = true
  · rw [if_pos listed, listed]
    simp
  · rw [if_neg listed, Bool.not_eq_true _ |>.mp listed]
    by_cases long : csv.length + (field.length + if csv = [] then 0 else 1) + 1 > cap
    · rw [if_pos long]
      simp only [Bool.false_eq_true, true_and, false_iff]
      omega
    · rw [if_neg long]
      simp only [true_and, true_iff]
      omega

theorem csvAdd_false (off : (csvAdd cap csv field).1 = false) : (csvAdd cap csv field).2 = csv := by
  by_cases none_ : field = []
  · rw [csvAdd, if_pos none_]
  by_cases listed : csvHas csv field = true
  · rw [csvAdd, if_neg none_, if_pos listed]
  by_cases long : csv.length + (field.length + if csv = [] then 0 else 1) + 1 > cap
  · rw [csvAdd, if_neg none_, if_neg listed, if_pos long]
  · rw [csvAdd, if_neg none_, if_neg listed, if_neg long] at off
    cases off

theorem csvAdd_true (on : (csvAdd cap csv field).1 = true) (some_ : field ≠ []) :
    (csvAdd cap csv field).2 = (if csv = [] then [] else csv ++ [comma]) ++ field := by
  obtain ⟨absent, fits⟩ := (csvAdd_iff some_).mp on
  rw [csvAdd, if_neg some_, absent, if_neg Bool.false_ne_true, if_neg (by omega)]
  by_cases h : csv = []
  · subst h
    rw [if_pos rfl, List.length_nil] at fits
    simp only [if_true, List.length_nil, copy, List.nil_append]
    exact List.take_of_length_le (by omega)
  · rw [if_neg h] at fits
    simp only [if_neg h, copy, List.length_append, List.length_singleton]
    rw [List.take_of_length_le (by omega)]

/-! ### Lists as sets -/

/-- The list in a buffer of `cap` bytes behaves as a set, for the one field. -/
structure SetLike (cap : Nat) (csv field : List UInt8) : Prop where
  adds : (csvAdd cap csv field).1 = true ↔
    csvHas csv field = false ∧ csv.length + (field.length + if csv = [] then 0 else 1) < cap
  added : (csvAdd cap csv field).1 = true → csvHas (csvAdd cap csv field).2 field = true ∧
    ∀ other, other ≠ field → csvHas (csvAdd cap csv field).2 other = csvHas csv other
  removed : csvHas csv field = true → csvHas (csvRemove cap csv field).2 field = false ∧
    fieldsOf (csvRemove cap csv field).2 = (fieldsOf csv).filter (· ≠ field)
  notAdded : (csvAdd cap csv field).1 = false → (csvAdd cap csv field).2 = csv
  notRemoved : (csvRemove cap csv field).1 = false → (csvRemove cap csv field).2 = csv

theorem csvAdd_has (proper : Proper field) (on : (csvAdd cap csv field).1 = true) :
    csvHas (csvAdd cap csv field).2 field = true ∧
      ∀ other, other ≠ field → csvHas (csvAdd cap csv field).2 other = csvHas csv other := by
  have fields : fieldsOf (csvAdd cap csv field).2 = fieldsOf csv ++ [field] := by
    rw [csvAdd_true on proper.some, fieldsOf_joined proper]
  refine ⟨csvHas_iff.mpr ?_, fun other ne => Bool.eq_iff_iff.mpr ?_⟩
  · rw [fields]
    exact List.mem_append_right _ (List.mem_singleton_self _)
  · rw [csvHas_iff, csvHas_iff, fields, List.mem_append, List.mem_singleton]
    exact or_iff_left ne

/-- A comma list behaves as a set exactly when a field that is there can go: the buffer is none that the removal
refuses, and the fields behind the 24th slot are empty or that field. -/
theorem setLike_iff (proper : Proper field) (holds : csv.length < cap) : SetLike cap csv field ↔
    (csvHas csv field = true → cap ≤ novaValMax * 2 ∧
      ∀ s ∈ (csv.splitOn comma).drop 24, trim s = [] ∨ trim s = field) := by
  have parts : (fieldsOf csv).filter (· ≠ field) =
      ((((csv.splitOn comma).take 24).map trim).filter (· ≠ [])).filter (· ≠ field) ++
        ((((csv.splitOn comma).drop 24).map trim).filter (· ≠ [])).filter (· ≠ field) := by
    rw [fieldsOf, ← List.filter_append, ← List.filter_append, ← List.map_append, List.take_append_drop]
  constructor
  · intro good listed
    have small : cap ≤ novaValMax * 2 := by
      by_contra large
      have same : (csvRemove cap csv field).2 = csv := by
        unfold csvRemove
        split
        · rfl
        · rw [if_pos (by omega)]
      have gone := (good.removed listed).1
      rw [same, listed] at gone
      cases gone
    refine ⟨small, fun s mem => ?_⟩
    have left := (good.removed listed).2
    rw [fieldsOf_csvRemove listed proper.some small holds, parts, List.self_eq_append_right] at left
    by_contra kept
    obtain ⟨some_, ne⟩ := not_or.mp kept
    have here : trim s ∈ ((((csv.splitOn comma).drop 24).map trim).filter (· ≠ [])).filter (· ≠ field) :=
      List.mem_filter.mpr ⟨List.mem_filter.mpr ⟨List.mem_map_of_mem mem, decide_eq_true some_⟩, decide_eq_true ne⟩
    rw [left] at here
    cases here
  · intro fits
    refine ⟨csvAdd_iff proper.some, csvAdd_has proper, fun listed => ?_, csvAdd_false, csvRemove_false⟩
    obtain ⟨small, behind⟩ := fits listed
    have none_ : ((((csv.splitOn comma).drop 24).map trim).filter (· ≠ [])).filter (· ≠ field) = [] := by
      rw [List.filter_eq_nil_iff]
      intro t mem
      obtain ⟨mem, some_⟩ := List.mem_filter.mp mem
      obtain ⟨s, slot, rfl⟩ := List.mem_map.mp mem
      rcases behind s slot with eq | eq
      · exact absurd eq (of_decide_eq_true some_)
      · simp [eq]
    have left : fieldsOf (csvRemove cap csv field).2 = (fieldsOf csv).filter (· ≠ field) := by
      rw [fieldsOf_csvRemove listed proper.some small holds, parts, none_, List.append_nil]
    refine ⟨?_, left⟩
    rw [← Bool.not_eq_true, csvHas_iff, left]
    intro mem
    exact of_decide_eq_true (List.mem_filter.mp mem).2 rfl

/-- Twenty-five fields of one letter. -/
def letters : List UInt8 := (List.range 25).flatMap fun i => if i = 0 then [0x61] else [comma, (0x61 + i).toUInt8]

theorem setLike_iff_pair : SetLike 194 [0x61, comma, 0x62] [0x61] ↔
    (csvHas [0x61, comma, 0x62] [0x61] = true → 194 ≤ novaValMax * 2 ∧
      ∀ s ∈ ([0x61, comma, 0x62].splitOn comma).drop 24, trim s = [] ∨ trim s = [0x61]) :=
  setLike_iff ⟨by decide, by decide, by decide⟩ (by decide)

/-- With twenty-five, the removal of the first loses the last as well. -/
theorem letters_not_setLike : ¬SetLike 194 letters [0x61] := by
  intro good
  have left := (good.removed (by decide)).2
  exact absurd left (by decide)

end RPCortex.Nova
