import Ucore.Lib.CircularList

/-!
This module contains the list operations of libs/list.h: a `list_entry_t` is a node, its two
fields are the links of that node.
-/

namespace Ucore

open CircularList

variable {α : Type}

def listNext (l : Links α) (listelm : α) : α := l.next listelm

def listPrev (l : Links α) (listelm : α) : α := l.prev listelm

variable [DecidableEq α]

def listInit (l : Links α) (elm : α) : Links α :=
  (l.setNext elm elm).setPrev elm elm

def _listAdd (l : Links α) (elm prev next : α) : Links α :=
  l.insertBetween elm prev next

def _listDel (l : Links α) (prev next : α) : Links α :=
  l.join prev next

def listAddAfter (l : Links α) (listelm elm : α) : Links α :=
  _listAdd l elm listelm (l.next listelm)

def listAdd (l : Links α) (listelm elm : α) : Links α :=
  listAddAfter l listelm elm

def listAddBefore (l : Links α) (listelm elm : α) : Links α :=
  _listAdd l elm (l.prev listelm) listelm

def listDel (l : Links α) (listelm : α) : Links α :=
  _listDel l (l.prev listelm) (l.next listelm)

def listEmpty (l : Links α) (list : α) : Bool :=
  l.next list = list

variable {l : Links α} {head : α} {xs ys : List α}

theorem listInit_isRing : IsRing (listInit l head) head [] := by
  apply IsRing.empty <;> simp [listInit, Links.setNext, Links.setPrev]

theorem listEmpty_iff (h : IsRing l head xs) : listEmpty l head = true ↔ xs = [] := by
  simp [listEmpty, h.next_head_eq_iff]

theorem listAdd_isRing {e : α} (h : IsRing l head (xs ++ ys)) (he : e ∉ head :: (xs ++ ys))
    : IsRing (listAdd l (xs.getLastD head) e) head (xs ++ e :: ys) := by
  rw [listAdd, listAddAfter, _listAdd, h.next_getLastD]
  exact h.insertBetween he

theorem listAddBefore_isRing {e : α} (h : IsRing l head (xs ++ ys)) (he : e ∉ head :: (xs ++ ys))
    : IsRing (listAddBefore l (ys.headD head) e) head (xs ++ e :: ys) := by
  rw [listAddBefore, _listAdd, h.prev_headD]
  exact h.insertBetween he

theorem listDel_isRing {e : α} (h : IsRing l head (xs ++ e :: ys))
    : IsRing (listDel l e) head (xs ++ ys) :=
  h.join

end Ucore
