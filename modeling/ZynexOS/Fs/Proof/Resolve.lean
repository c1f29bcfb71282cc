import ZynexOS.Fs.Proof.Mount

/-! # What a path means -/

namespace ZynexOS

open Library

namespace Fs

open View

variable {v : View} {f dir : Nat} {path name : Name}

theorem components_cons_slash (path : Name) : components (slash :: path) = components path := by
  unfold components
  rw [List.splitOnP_cons_eq_if_modifyHead, if_pos (by simp), List.filter_cons_of_neg (by simp)]

theorem components_skipSlash (path : Name) : components (skipSlash path) = components path := by
  induction path with
  | nil => rfl
  | cons c path ih =>
      unfold skipSlash at ih ⊢
      rw [List.dropWhile_cons]
      split
      · next hc =>
          have hslash : c = slash := by simpa using hc
          rw [ih, hslash, components_cons_slash]
      · rfl

theorem components_eq_cons (hsome : path ≠ []) (hhead : path.head? ≠ some slash) :
    components path = (nextName path).1 :: components (nextName path).2 := by
  have hname : (nextName path).1 ≠ [] := nextName_ne_nil hsome hhead
  have hplain : ∀ c ∈ path.takeWhile (· ≠ slash), decide (c = slash) = false := by
    intro c hc
    simpa using List.mem_takeWhile_imp hc
  have hsplit : path = path.takeWhile (· ≠ slash) ++ path.dropWhile (· ≠ slash) :=
    (List.takeWhile_append_dropWhile).symm
  unfold nextName at hname ⊢
  dsimp only at hname ⊢
  rw [components_skipSlash]
  cases hdrop : path.dropWhile (· ≠ slash) with
  | nil =>
      rw [hdrop, List.append_nil] at hsplit
      rw [← hsplit] at hname hplain ⊢
      unfold components
      rw [List.splitOnP_eq_singleton hplain, List.filter_cons_of_pos (by simpa using hname)]
      rfl
  | cons c rest =>
      have hslash : c = slash := by
        have hfirst := List.head_dropWhile_not (fun c => decide (c ≠ slash))
          (show path.dropWhile (· ≠ slash) ≠ [] by rw [hdrop]; nofun)
        simp only [hdrop, List.head_cons] at hfirst
        simpa using hfirst
      rw [hdrop, hslash] at hsplit
      rw [hslash, components_cons_slash]
      conv_lhs => rw [hsplit]
      unfold components
      rw [List.splitOnP_append_cons_of_forall_mem hplain _ (by simp),
        List.filter_cons_of_pos (by simpa using hname)]

theorem components_eq_nil_iff (hhead : path.head? ≠ some slash) : components path = [] ↔ path = [] := by
  constructor
  · intro hnone
    by_contra hsome
    rw [components_eq_cons hsome hhead] at hnone
    cases hnone
  · rintro rfl
    rfl

theorem subset_of_mem_splitOnP {p : BitVec 8 → Bool} (hpart : name ∈ path.splitOnP p) :
    name ⊆ path := by
  induction path generalizing name with
  | nil =>
      rw [List.splitOnP_nil, List.mem_singleton] at hpart
      exact hpart ▸ List.Subset.refl _
  | cons c path ih =>
      rw [List.splitOnP_cons_eq_if_modifyHead] at hpart
      split at hpart
      · obtain rfl | hpart := List.mem_cons.mp hpart
        · exact List.nil_subset _
        · exact List.subset_cons_of_subset _ (ih hpart)
      · cases hparts : path.splitOnP p with
        | nil =>
            rw [hparts] at hpart
            cases hpart
        | cons first rest =>
            rw [hparts] at hpart ih
            obtain rfl | hpart := List.mem_cons.mp hpart
            · exact List.cons_subset_cons _ (ih List.mem_cons_self)
            · exact List.subset_cons_of_subset _ (ih (List.mem_cons_of_mem _ hpart))

theorem mem_components (hzero : 0 ∉ path) (hname : name ∈ components path) :
    name ≠ [] ∧ 0 ∉ name := by
  obtain ⟨hpart, hsome⟩ := List.mem_filter.mp hname
  exact ⟨of_decide_eq_true hsome, fun h => hzero (subset_of_mem_splitOnP hpart h)⟩

theorem View.child_of_lookup {e : Nat} (hlookup : v.lookup dir name = some e) :
    v.Child dir name e := by
  have hname := List.find?_some hlookup
  exact ⟨List.mem_of_find?_eq_some hlookup, hname⟩

theorem View.lookup_eq_none_iff : v.lookup dir name = none ↔ ∀ e, ¬v.Child dir name e := by
  unfold View.lookup Child
  rw [List.find?_eq_none]
  exact ⟨fun h e hchild => h e hchild.1 hchild.2, fun h e he hname => h e ⟨he, hname⟩⟩

theorem View.DirTree.lookup_eq (htree : v.DirTree) (hdir : v.Reach dir) (htype : v.IsDir dir)
    (hname : name ≠ []) (hzero : 0 ∉ name) {e : Nat} (hchild : v.Child dir name e) :
    v.lookup dir name = some e := by
  cases hlookup : v.lookup dir name with
  | none => exact absurd hchild (lookup_eq_none_iff.mp hlookup e)
  | some e' =>
      rw [htree.distinct dir name e e' hdir htype hname hzero hchild (child_of_lookup hlookup)]

theorem View.DirTree.child_short (htree : v.DirTree) (hdir : v.Reach dir) (htype : v.IsDir dir)
    (hzero : 0 ∉ name) {e : Nat} (hchild : v.Child dir name e) : name.length < maxNameLen := by
  obtain ⟨i, hi, hend⟩ := htree.terminated dir e hdir htype hchild.1
  by_contra hlong
  have hbyte := View.nameAt_iff.mp hchild.2 i (by omega)
  rw [hend] at hbyte
  exact getD_ne_zero hzero (by omega) hbyte.symm

theorem View.DirTree.resolves_walk (htree : v.DirTree) {fuel : Nat} {parent : Option Nat}
    (hf : v.Reach f) (hfuel : path.length < fuel) (hhead : path.head? ≠ some slash)
    (hzero : 0 ∉ path) :
    v.Resolves parent f (components path) (v.walk fuel path parent f) := by
  induction fuel generalizing path parent f with
  | zero => omega
  | succ fuel ih =>
      rw [View.walk, View.walkStep]
      split
      · next hnil => exact hnil ▸ .found parent f
      next hsome =>
      have hname := nextName_ne_nil hsome hhead
      have hzero' : 0 ∉ (nextName path).1 := fun h => hzero (mem_of_mem_nextName (.inl h))
      have hrest := components_eq_nil_iff (nextName_rest_head path)
      rw [components_eq_cons hsome hhead]
      split
      · next hlong =>
          refine .tooLong ?_ hlong
          by_cases htype : v.IsDir f
          · refine .inr fun e hchild => ?_
            exact not_lt.mpr hlong (htree.child_short hf htype hzero' hchild)
          · exact .inl htype
      next hshort =>
      split
      · next hfile => exact .notFound (.inl hfile) (not_le.mp hshort)
      next hdir =>
      have htype : v.IsDir f := not_not.mp hdir
      split
      · next e hlookup =>
          have hless := nextName_rest_length hsome hhead
          refine .down htype (child_of_lookup hlookup) (ih ?_ (by omega) (nextName_rest_head path) ?_)
          · exact reach_of_lookup hf htype hname hzero' hlookup
          · exact fun h => hzero (mem_of_mem_nextName (.inr h))
      · next hlookup =>
          have hnone := lookup_eq_none_iff.mp hlookup
          split
          · next hnil =>
              rw [hrest.mpr hnil]
              exact .lastMissing htype hnone (not_le.mp hshort)
          · next hmore => exact .notFound (.inr ⟨fun h => hmore (hrest.mp h), hnone⟩) (not_le.mp hshort)

theorem View.DirTree.resolves_unique (htree : v.DirTree) {parent : Option Nat} {names : List Name}
    {w w' : Walk} (hf : v.Reach f) (hnames : ∀ name ∈ names, name ≠ [] ∧ 0 ∉ name)
    (hres : v.Resolves parent f names w) (hres' : v.Resolves parent f names w') : w' = w := by
  induction hres with
  | found => cases hres' with
    | found => rfl
  | down htype hchild _ ih =>
      obtain ⟨hname, hzero⟩ := hnames _ List.mem_cons_self
      have hshort := htree.child_short hf htype hzero hchild
      cases hres' with
      | down _ hchild' hnext' =>
          cases htree.distinct _ _ _ _ hf htype hname hzero hchild hchild'
          refine ih ?_ (fun name h => hnames name (List.mem_cons_of_mem _ h)) hnext'
          exact reach_of_lookup hf htype hname hzero (htree.lookup_eq hf htype hname hzero hchild)
      | tooLong _ hlong => omega
      | lastMissing _ hnone _ => exact absurd hchild (hnone _)
      | notFound hstop _ =>
          obtain hfile | ⟨-, hnone⟩ := hstop
          · exact absurd htype hfile
          · exact absurd hchild (hnone _)
  | tooLong hstop hlong =>
      cases hres' with
      | down htype hchild _ =>
          obtain hfile | hnone := hstop
          · exact absurd htype hfile
          · exact absurd hchild (hnone _)
      | tooLong _ _ => rfl
      | lastMissing _ _ hshort => omega
      | notFound _ hshort => omega
  | lastMissing htype hnone hshort =>
      cases hres' with
      | down _ hchild _ => exact absurd hchild (hnone _)
      | tooLong _ hlong => omega
      | lastMissing _ _ _ => rfl
      | notFound hstop _ =>
          obtain hfile | ⟨hmore, -⟩ := hstop
          · exact absurd htype hfile
          · exact absurd rfl hmore
  | notFound hstop hshort =>
      cases hres' with
      | down htype hchild _ =>
          obtain hfile | ⟨-, hnone⟩ := hstop
          · exact absurd htype hfile
          · exact absurd hchild (hnone _)
      | tooLong _ hlong => omega
      | lastMissing htype _ _ =>
          obtain hfile | ⟨hmore, -⟩ := hstop
          · exact absurd htype hfile
          · exact absurd rfl hmore
      | notFound _ _ => rfl

/-- `walk_path` changes nothing and returns what the names in the path mean. -/
theorem walkPath_resolves {fs : Fs} (htree : fs.toView.DirTree) (hzero : 0 ∉ path) :
    ∃ w fs', walkPath path fs = .ok w fs' ∧ fs'.cached = fs.cached ∧
      ∀ w', fs.toView.Resolves none rootAddr (components path) w' ↔ w' = w := by
  obtain ⟨fs', hrun, hcached, -⟩ := reads_walkPath htree.toDirsOk hzero fs rfl
  have hres : fs.toView.Resolves none rootAddr (components path) (fs.toView.walkPath path) := by
    rw [← components_skipSlash]
    refine htree.resolves_walk .root ?_ skipSlash_head ?_
    · exact Nat.lt_succ_of_le (skipSlash_length_le path)
    · exact fun h => hzero ((List.dropWhile_sublist _).subset h)
  refine ⟨_, fs', hrun, hcached, fun w' => ⟨fun hres' => ?_, fun h => h ▸ hres⟩⟩
  exact htree.resolves_unique .root (fun _ => mem_components hzero) hres hres'

def Format.mounted (s : Format) : Fs where
  toView := s.view
  cache := ⟨fun _ => false, fun _ => false, fun x => s.mem (0x10000000 + x), []⟩

section

variable {nblocks : Nat} {heap : Bytes} {files : List HostFile} {s : Format}

theorem Image.mem_entries (himage : Image nblocks heap files v.mem) {e : Nat}
    (he : e ∈ v.entries rootAddr 0 (v.dirBlocks rootAddr)) :
    (∃ j, ∃ _ : j < files.length, e = fileAddr files j) ∨ v.mem e = 0 := by
  have hroom := himage.rootBlocks_le
  rw [himage.dirBlocks_root, himage.entries_eq (by omega), List.mem_map] at he
  obtain ⟨k, hk, rfl⟩ := he
  rw [Nat.mul_zero, ← List.range_eq_range', List.mem_range] at hk
  by_cases hfile : k < files.length
  · exact .inl ⟨k, hfile, rfl⟩
  · refine .inr (himage.blank _ ?_ ?_)
    all_goals
      unfold fileAddr blockAddr
      omega

theorem Image.dirTree (hn : nblocks ≤ 1024) (himage : Image nblocks heap files v.mem)
    (hfiles : files ≠ []) (hunset : Unset heap files)
    (hshort : ∀ h ∈ files, h.name.length < maxNameLen)
    (hdistinct : (files.map HostFile.name).Nodup) : v.DirTree where
  toDirsOk := (himage.wellFormed hn hfiles hunset).dirsOk
  terminated dir e hdir htype he := by
    obtain rfl := himage.isDir_iff hdir htype
    obtain ⟨j, hj, rfl⟩ | hblank := himage.mem_entries he
    · have hlen := hshort files[j] (List.getElem_mem hj)
      refine ⟨files[j].name.length, hlen, ((himage.laid j hj).name _ le_rfl hlen).trans ?_⟩
      exact List.getD_eq_default _ _ le_rfl
    · exact ⟨0, by decide, hblank⟩
  distinct dir name e e' hdir htype hname hzero hchild hchild' := by
    obtain rfl := himage.isDir_iff hdir htype
    have hfile : ∀ e, v.Child rootAddr name e →
        ∃ j, ∃ hj : j < files.length, e = fileAddr files j ∧ files[j].name = name := by
      intro e hchild
      obtain ⟨j, hj, rfl⟩ | hblank := himage.mem_entries hchild.1
      · exact ⟨j, hj, rfl, (himage.nameAt_iff hshort hj hzero).mp hchild.2⟩
      · have hbyte := View.nameAt_iff.mp hchild.2 0 (Nat.zero_le _)
        exact absurd (hbyte.symm.trans hblank) (getD_ne_zero hzero (List.length_pos_iff.mpr hname))
    obtain ⟨j, hj, rfl, hsame⟩ := hfile e hchild
    obtain ⟨j', hj', rfl, hsame'⟩ := hfile e' hchild'
    have hequal := List.inj_on_of_nodup_map hdistinct (List.getElem_mem hj) (List.getElem_mem hj')
      (hsame.trans hsame'.symm)
    rw [(List.Nodup.of_map _ hdistinct).getElem_inj_iff.mp hequal]

theorem walkPath_small_file : ∃ fs : Fs, fs.toView.DirTree ∧
    ∃ w fs', walkPath [slash, 0x61, slash] fs = .ok w fs' ∧ fs'.cached = fs.cached ∧
      ∀ w', fs.toView.Resolves none rootAddr (components [slash, 0x61, slash]) w' ↔ w' = w := by
  have hok : (fsformat (fun _ => 0) 8 [smallFile]).isOk = true := by decide +kernel
  obtain ⟨s, hrun⟩ := exists_ok hok
  obtain ⟨hn, himage⟩ := image_of_fsformat hrun
  have hshort : ∀ h ∈ [smallFile], h.name.length < maxNameLen := by decide
  have hunset := Image.unset_of_zero (fun _ _ _ => rfl) himage.few hshort
  have htree : s.mounted.toView.DirTree :=
    Image.dirTree hn himage (by nofun) hunset hshort (by decide)
  exact ⟨s.mounted, htree, walkPath_resolves htree (by decide)⟩

end

end Fs

end ZynexOS
