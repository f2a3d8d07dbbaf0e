import EnumBinding.Text.Lines

/-!
# The preamble

What every generated file opens with: the licence of the binding, its package, the C headers it
includes, and the version it was built for.
-/

namespace EnumBinding.Preamble

def licence : List String :=
  ["/*",
   " * Go interface to libheif",
   " *",
   " * Copyright (c) 2018-2024 struktur AG, Joachim Bauch <bauch@struktur.de>",
   " *",
   " * libheif is free software: you can redistribute it and/or modify",
   " * it under the terms of the GNU Lesser General Public License as",
   " * published by the Free Software Foundation, either version 3 of",
   " * the License, or (at your option) any later version.",
   " *",
   " * libheif is distributed in the hope that it will be useful,",
   " * but WITHOUT ANY WARRANTY; without even the implied warranty of",
   " * MERCHANTABILITY or FITNESS FOR A PARTICULAR PURPOSE.  See the",
   " * GNU Lesser General Public License for more details.",
   " *",
   " * You should have received a copy of the GNU Lesser General Public License",
   " * along with libheif.  If not, see <http://www.gnu.org/licenses/>.",
   " */"]

def package : String := "libheif"

def imports : List String :=
  ["// #cgo pkg-config: libheif",
   "// #include <stdlib.h>",
   "// #include <string.h>",
   "// #include <libheif/heif.h>",
   "import \"C\""]

def lines (version : String) : List String :=
  licence ++ ["", "package " ++ package, ""] ++ imports ++
    ["", "const build_version = " ++ version, ""]

def source (version : String) : String := Text.unlines (lines version)

end EnumBinding.Preamble
