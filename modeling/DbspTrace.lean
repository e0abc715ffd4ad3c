import DbspTrace.Layers.Advance
import DbspTrace.Layers.OrderedLeaf
import DbspTrace.Layers.Merge
import DbspTrace.Layers.Cursor
import DbspTrace.Spine.Basic
import DbspTrace.Spine.Ops
import DbspTrace.Spine.Fuel
import DbspTrace.Spine.Threshold
import DbspTrace.Spine.Levels
import DbspTrace.Spine.Sizes
import DbspTrace.Spine.Deficit
import DbspTrace.Spine.Recorded
import DbspTrace.Spine.Contents
import DbspTrace.Spine.Consolidate
import DbspTrace.Spine.Reader
import DbspTrace.Spine.Runs
